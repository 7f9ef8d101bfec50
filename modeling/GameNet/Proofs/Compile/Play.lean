import GameNet.Proofs.Compile.Meaning
import GameNet.Proofs.Layout.Roster

/-!
Compiled networks are played as their listings say.

`Rendering` is all that is needed of the compiler: which component stands for which row, and that it has
the value of its row.
-/

namespace GameNet

open List Option

def Proposition.wording (p : Proposition) : Proposition :=
  { p with role := .other, pairedInput := none, pairedLegal := none }

namespace Listing

open Network

/-! ## The lists of the players -/

section Players

variable {l : Listing} {flat net : Network} {pairs : List (CompId × CompId)}

theorem Built.withRole_eq (h : Built l flat pairs net) (role : PropRole) :
    (flat.mapComponents Component.fitThresholds).withRole role = l.withRole role := by
  have hl : (l.withRole role).Pairwise (· < ·) :=
    (CompId.pairwise_dropRepeats (CompId.pairwise_sorted _)).sublist filter_sublist
  refine (pairwise_withRole _ role).eq_of_mem_iff hl fun c => ?_
  rw [Network.mem_withRole, h.isRole_iff_mem]

theorem Built.legals_eq (h : Built l flat pairs net) (role : Nat) :
    (net.players[role]?).elim [] (·.legals) = l.legalsOf role := by
  rw [h.recorded.players, h.roles, legalsOf]
  cases hr : l.roles[role]? with
  | none =>
    -- nobody has this role, so no legal is for it
    refine (filter_eq_nil_iff.mpr fun c hc hlegal => ?_).symm
    obtain ⟨r, m, hlt, hmove, -⟩ := h.exists_move hc
    rw [hmove, Bool.and_eq_true, beq_iff_eq] at hlegal
    obtain rfl : r = role := Option.some.inj hlegal.1
    exact absurd hlt (Nat.not_lt.mpr (List.getElem?_eq_none_iff.mp hr))
  | some name =>
    rw [← h.withRole_eq]
    refine filter_congr fun c hc => ?_
    rw [h.withRole_eq] at hc
    obtain ⟨r, m, -, hmove, hplayer⟩ := h.exists_move hc
    rw [playerAt_of_player? hplayer, h.counterpart?_eq hc, hmove]
    rfl

theorem Built.goals_eq (h : Built l flat pairs net) (role : Nat) :
    (net.players[role]?).elim [] (·.goals) = l.goalsOf role := by
  rw [h.recorded.players, h.roles, goalsOf]
  cases hr : l.roles[role]? with
  | none =>
    refine (filter_eq_nil_iff.mpr fun g hg hgoal => ?_).symm
    obtain ⟨r, hlt, hplayer, -⟩ := h.exists_score hg
    rw [Network.player?, h.proposition?] at hplayer
    rw [hplayer, beq_iff_eq] at hgoal
    obtain rfl : r = role := Option.some.inj hgoal
    exact absurd hlt (Nat.not_lt.mpr (List.getElem?_eq_none_iff.mp hr))
  | some name =>
    rw [← h.withRole_eq]
    refine filter_congr fun g _ => ?_
    rw [h.proposition?]

end Players

/-! ## From rows to the components of a compiled network -/

/-- The network shows the game of the rows; a row `c` that matters is the component `f c`. -/
structure Rendering (l : Listing) (f : CompId → CompId) (net : Network) : Prop where
  finished : net.Finished
  injective : Function.Injective f
  base : ∀ b ∈ net.bases, ∃ b₀ ∈ l.withRole .base, b = f b₀
  driven : List.Forall₂ (fun b t => ∃ b₀ t₀, b = f b₀ ∧ t = f t₀ ∧ net.op? t = some .transition ∧
    ∀ m, l.stateAfter m b₀ = l.values m t₀) net.bases net.transitions
  start : List.Forall₂ (fun b v => ∀ b₀, b = f b₀ → v = l.initialState b₀) net.bases net.initialState
  input : ∀ i, net.isRole (f i) .input = true → i ∈ l.withRole .input
  legals : ∀ role : Nat, ((net.players[role]?).elim [] (·.legals)).Perm ((l.legalsOf role).map f)
  goals : ∀ role : Nat, (net.players[role]?).elim [] (·.goals) = (l.goalsOf role).map f
  terminal : ∃ t, l.withRole .terminal = [t] ∧ net.terminal = f t
  /-- a legal is paired with the one input for its move -/
  inputFor : ∀ c ∈ l.withRole .legal, ∀ i, l.inputFor? c = some i ↔
    i ∈ l.withRole .input ∧ l.moveOf? i = l.moveOf? c
  paired : ∀ c ∈ l.withRole .legal, f c ∈ net.legals → net.pairedInput? (f c) = (l.inputFor? c).map f
  wording : ∀ c p, l.row? c ≠ none → net.proposition? (f c) = some p →
    (l.proposition? c).map (·.wording) = some p.wording
  truth : ∀ p q : Position, l.Permits p → (∀ b, f b ∈ net.bases → q.on (f b) = p.on b) →
    (∀ i, net.isRole (f i) .input = true → q.does (f i) = p.does i) → ∀ c op, net.op? (f c) = some op →
      op.isGate = false → net.truth q (f c) = l.values (.during p) c

theorem elim_of_forall₂ {R : List CompId → List CompId → Prop} (hnil : R [] []) (view : Player → List CompId)
    {ps qs : List Player} (h : List.Forall₂ (fun p q => R (view p) (view q)) ps qs) (role : Nat) :
    R ((ps[role]?).elim [] view) ((qs[role]?).elim [] view) := by
  induction h generalizing role with
  | nil => exact hnil
  | cons hpq _ ih =>
    cases role with
    | zero => exact hpq
    | succ role => exact ih role

section Compiled

variable {l : Listing} {opts : Options} {cut last net : Network}

theorem Compiled.initUndriven (h : Compiled l opts cut last net) (hraw : opts.level = .raw) :
    l.InitUndriven := by
  intro c hc
  obtain ⟨flat, pairs, built, hbuilt, hcut⟩ := h.built
  have hinit := hbuilt.init_of_lists (hbuilt.lists_iff.mpr hc)
  have hnil := h.undriven hraw c ((field_of_parts Network.init hcut.parts).trans hinit)
  rwa [hcut.inputsOf, if_neg, hbuilt.inputsOf] at hnil
  intro hbase
  rw [hbuilt.recorded.driven, hbuilt.withRole_eq] at hbase
  exact absurd ((hbuilt.lists_iff.mpr hbase).unique (hbuilt.lists_iff.mpr hc)) (by decide)

structure Kept (l : Listing) (built net : Network) : Prop where
  finished : net.Finished
  players : net.players = built.players
  terminal : net.terminal = built.terminal
  kind : ∀ c kind, net.kind? c = some kind → kind.op.isGate = false → built.kind? c = some kind
  driven : ∀ b t, built.kind? t = some (.transition (some b)) → ∀ m, l.stateAfter m b = l.values m t
  start : net.initialState = net.bases.map l.initialState
  answers : net.Answers l.Permits fun p => l.values (.during p)

theorem Compiled.kept (h : Compiled l opts cut last net) (hb : l.Balanced) (ha : l.Acyclic)
    (hi : l.InitUndriven) : ∃ flat pairs built kept f, Built l flat pairs built ∧ l.Kept built kept ∧
      Renames f kept net := by
  obtain ⟨flat, pairs, built, hbuilt, hcut⟩ := h.built
  obtain ⟨lead, init, derived, hled, hd, hconst, hlater⟩ := id h.lineage
  obtain ⟨capped, counted, f, hcapped, hrec, hfin, -, hcounted, hre⟩ := h.finishing.same
  have ho : Origin l flat pairs built cut lead init derived :=
    ⟨hb, ha, hi, hbuilt, hcut, h.formed, hled, hd, hconst⟩
  have hlater := hlater.trans hcapped
  have hline : Lineage cut capped := h.lineage.later hcapped
  refine ⟨flat, pairs, built, counted, f, hbuilt, ?_, hre⟩
  exact
    { finished := hfin
      players := by
        rw [field_of_parts Network.players hrec.parts, hline.players,
          field_of_parts Network.players hcut.parts]
      terminal := by
        rw [field_of_parts Network.terminal hrec.parts, hline.terminal,
          field_of_parts Network.terminal hcut.parts]
      kind := fun c kind hk hg =>
        (hcut.kind? c).symm.trans (hline.kind? ((hrec.kind? c).symm.trans hk) hg)
      driven := fun b t ht m => ho.stateAfter_of_driven ht m
      start := by
        rw [field_of_parts Network.initialState hrec.parts, hlater.start _ ho.start,
          field_of_parts Network.bases hrec.parts]
      answers := hcounted _ _ (hlater.answers _ _ ho.answers) }

end Compiled

section Kept

variable {l : Listing} {flat built kept net : Network} {pairs : List (CompId × CompId)} {f : CompId → CompId}
  {c : CompId}

theorem Kept.proposition? (hk : l.Kept built kept) {p : Proposition} (hp : kept.proposition? c = some p) :
    built.proposition? c = some p := by
  have hkind := kind?_of_proposition? hp
  exact (proposition?_of_kind? ((hk.kind c _ hkind rfl).trans hkind.symm)).trans hp

section

variable (hk : l.Kept built kept) (hbuilt : Built l flat pairs built)
include hk hbuilt

theorem Kept.mem_withRole {role : PropRole} (hr : kept.isRole c role) (hl : role ≠ .legal)
    (ho : role ≠ .other) (hi : role ≠ .init) : c ∈ l.withRole role := by
  obtain ⟨p, hp, hrole⟩ := isRole_iff.mp hr
  exact hbuilt.mem_withRole (isRole_iff.mpr ⟨p, hk.proposition? hp, hrole⟩) hl ho hi

theorem Kept.wording {p : Proposition} (hrow : l.row? c ≠ none) (hp : kept.proposition? c = some p) :
    (l.proposition? c).map (·.wording) = some p.wording := by
  obtain ⟨r, hr⟩ := ne_none_iff_exists'.mp hrow
  obtain ⟨kind, -, hcomp⟩ := hbuilt.placed.get?_of_row? hr
  have hlive : (flat.mapComponents Component.fitThresholds).contains c = true := by
    rw [contains_iff, get?_mapComponents, hcomp]
    exact ⟨_, rfl⟩
  have hold := hk.proposition? hp
  rw [hbuilt.recorded.proposition?_of_get? hlive, hbuilt.proposition?] at hold
  obtain ⟨q, hq, rfl⟩ := map_eq_some_iff.mp hold
  rw [hq]
  rfl

theorem Kept.rendering (hre : Renames f kept net) : l.Rendering f net := by
  have hf := hk.finished.formed
  constructor
  case finished => exact hre.finished hk.finished
  case injective => exact hre.injective
  case base =>
    intro b hb
    obtain ⟨b₀, hb₀, rfl⟩ := hre.mem_bases.mp hb
    exact ⟨b₀, hk.mem_withRole hbuilt (hf.base b₀ hb₀).1 (by decide) (by decide) (by decide), rfl⟩
  case driven =>
    refine hre.driven _ (hf.driven.imp fun b t ht => ⟨b, t, rfl, rfl, ?_, fun m => ?_⟩)
    · exact (hre.op? t).trans (op?_of_kind? ht)
    · exact hk.driven b t (hk.kind t _ ht rfl) m
  case start =>
    refine hre.start _ ?_
    rw [hk.start, forall₂_map_right_iff]
    refine forall₂_same.mpr fun b _ b₀ hbb => ?_
    rw [hre.injective hbb]
  case input =>
    intro i hi
    exact hk.mem_withRole hbuilt ((hre.isRole i .input).symm.trans hi) (by decide) (by decide) (by decide)
  case legals =>
    intro role
    rw [← hbuilt.legals_eq, ← hk.players]
    exact elim_of_forall₂ (R := fun x y => y.Perm (x.map f)) .nil Player.legals
      (hre.players.imp fun p q hpq => hpq.2.1) role
  case goals =>
    intro role
    rw [← hbuilt.goals_eq, ← hk.players]
    exact elim_of_forall₂ (R := fun x y => y = x.map f) rfl Player.goals
      (hre.players.imp fun p q hpq => hpq.2.2) role
  case terminal =>
    refine ⟨built.terminal, hbuilt.withRole_eq .terminal ▸ hbuilt.recorded.terminal, ?_⟩
    rw [hre.terminal, hk.terminal]
  case inputFor => exact fun c hc i => hbuilt.inputFor?_iff hc
  case paired =>
    intro c hc hlegal
    obtain ⟨c', hc', hcc⟩ := hre.mem_legals.mp hlegal
    obtain rfl := hre.injective hcc
    obtain ⟨p, hp, -⟩ := isRole_iff.mp (hf.legal c hc').1
    rw [hre.pairedInput?, ← hbuilt.pairedInput?_eq hc, pairedInput?_eq, pairedInput?_eq, hp,
      hk.proposition? hp]
  case wording =>
    intro c p hrow hp
    rw [hre.proposition?] at hp
    obtain ⟨q, hq, rfl⟩ := map_eq_some_iff.mp hp
    have hsame := hk.wording hbuilt hrow hq
    exact hsame
  case truth =>
    intro p q hp hon hdoes c op hop hg
    rw [hre.op?] at hop
    rw [hre.truth hf hon hdoes (contains_of_op? hop)]
    exact hk.answers.truth_eq hf.balanced hf.acyclic hp hop hg

end

end Kept

/-! ## A network in step with its listing -/

def InStep (f : CompId → CompId) (net : Network) (on : CompId → Bool) (bits : List Bool) : Prop :=
  List.Forall₂ (fun b v => ∀ b₀, b = f b₀ → v = on b₀) net.bases bits

section Rendering

variable {l : Listing} {f : CompId → CompId} {net : Network} {on does : CompId → Bool} {bits : List Bool}
  {role : Nat} {c : CompId} {t : Term}

theorem InStep.on_eq (hs : InStep f net on bits) {b : CompId} (hb : f b ∈ net.bases) :
    (net.bases.idxOf? (f b)).elim false (bits.getD · false) = on b := by
  obtain ⟨i, hi⟩ := ne_none_iff_exists'.mp fun hnone => idxOf?_eq_none_iff.mp hnone hb
  obtain ⟨hlt, hget, -⟩ := idxOf?_eq_some_iff.mp hi
  have hlt' : i < bits.length := hs.length_eq ▸ hlt
  rw [hi, elim_some, getD_eq_getElem?_getD, getElem?_eq_getElem hlt', getD_some]
  exact hs.get hlt hlt' b hget

theorem Rendering.eval (h : l.Rendering f net) (hs : InStep f net on bits) {chosen : List CompId}
    (hp : l.Permits ⟨on, does⟩) (hon : net.Choosable chosen)
    (hdoes : ∀ i, net.isRole (f i) .input → chosen.contains (f i) = does i) {op : Op}
    (hop : net.op? (f c) = some op) (hg : op.isGate = false) :
    net.eval (net.reading bits chosen) (f c) = l.values ⟨false, on, does⟩ c := by
  rw [h.finished.primed.eval_reading (net.shows_position bits chosen) hon (contains_of_op? hop)]
  exact h.truth ⟨on, does⟩ _ hp (fun b hb => hs.on_eq hb) hdoes c op hop hg

theorem exists_row_of_mem {part : PropRole} (hc : c ∈ l.withRole part) : ∃ r, l.row? c = some r := by
  obtain ⟨p, hp, -⟩ := mem_withRole.mp hc
  obtain ⟨k, hk, -⟩ := bind_eq_some_iff.mp hp
  obtain ⟨r, hr, -⟩ := bind_eq_some_iff.mp hk
  exact ⟨r, hr⟩

theorem Rendering.eval_quiet (h : l.Rendering f net) (hs : InStep f net on bits) {part part' : PropRole}
    (hc : c ∈ l.withRole part) (hrole : net.isRole (f c) part') :
    net.eval (net.reading bits []) (f c) = l.value (.quiet on) c := by
  obtain ⟨r, hr⟩ := exists_row_of_mem hc
  rw [h.eval hs (l.permits_quiet ⟨on, fun _ => false⟩) net.choosable_nil (fun _ _ => rfl)
    (op?_of_isRole hrole) rfl]
  exact values_of_row? hr

/-! ### Moves -/

theorem mem_legalsOf : c ∈ l.legalsOf role ↔ c ∈ l.withRole .legal ∧ (∃ t, l.moveOf? c = some (role, t)) ∧
    ∃ i, l.inputFor? c = some i := by
  rw [legalsOf, mem_filter, Bool.and_eq_true, beq_iff_eq, isSome_iff_exists, map_eq_some_iff]
  refine and_congr_right fun _ => and_congr_left fun _ => ⟨?_, ?_⟩
  · rintro ⟨⟨r, t⟩, hmove, rfl⟩
    exact ⟨t, hmove⟩
  · rintro ⟨t, hmove⟩
    exact ⟨_, hmove, rfl⟩

theorem mem_flatMap_of_elim {view : Player → List CompId} (hc : c ∈ (net.players[role]?).elim [] view) :
    c ∈ net.players.flatMap view := by
  cases hp : net.players[role]? with
  | none =>
    rw [hp] at hc
    cases hc
  | some p =>
    rw [hp] at hc
    exact mem_flatMap.mpr ⟨p, mem_of_getElem? hp, hc⟩

theorem Rendering.mem_legals (h : l.Rendering f net) (hc : c ∈ l.legalsOf role) : f c ∈ net.legals :=
  mem_flatMap_of_elim ((h.legals role).mem_iff.mpr (mem_map_of_mem hc))

theorem Rendering.proposition? (h : l.Rendering f net) {part part' : PropRole} (hc : c ∈ l.withRole part)
    (hrole : net.isRole (f c) part') : ∃ p q, net.proposition? (f c) = some p ∧
      l.proposition? c = some q ∧ p.wording = q.wording := by
  obtain ⟨p, hp, -⟩ := isRole_iff.mp hrole
  obtain ⟨r, hr⟩ := exists_row_of_mem hc
  obtain ⟨q, hq, hsame⟩ := map_eq_some_iff.mp (h.wording c p (by rw [hr]; exact some_ne_none r) hp)
  exact ⟨p, q, hp, hq, hsame.symm⟩

theorem Rendering.move? (h : l.Rendering f net) (hc : c ∈ l.legalsOf role)
    (hmove : l.moveOf? c = some (role, t)) : net.move? (f c) = some t := by
  have hrole := (h.finished.formed.legal (f c) (h.mem_legals hc)).1
  obtain ⟨p, q, hp, hq, hsame⟩ := h.proposition? (mem_legalsOf.mp hc).1 hrole
  rw [moveOf?, hq, bind_some] at hmove
  obtain ⟨r, -, hmove⟩ := bind_eq_some_iff.mp hmove
  obtain ⟨t', ht', hmove⟩ := map_eq_some_iff.mp hmove
  cases hmove
  have hterm := congrArg Proposition.move hsame
  rw [Network.move?, hp, bind_some, ← ht']
  exact hterm

theorem legalsIn_eq_filter (net : Network) (bits : List Bool) (role : Nat) : net.legalsIn bits role =
    ((net.players[role]?).elim [] (·.legals)).filter (net.eval (net.reading bits [])) := by
  rw [Network.legalsIn]
  cases net.players[role]? <;> rfl

theorem Rendering.legalsIn (h : l.Rendering f net) (hs : InStep f net on bits) (role : Nat) :
    (net.legalsIn bits role).Perm ((l.legalsIn on role).map f) := by
  rw [legalsIn_eq_filter]
  refine ((h.legals role).filter _).trans (.of_eq ?_)
  rw [List.filter_map, Listing.legalsIn]
  refine congrArg _ (filter_congr fun c hc => ?_)
  exact h.eval_quiet hs (mem_legalsOf.mp hc).1 (h.finished.formed.legal _ (h.mem_legals hc)).1

end Rendering

/-! ## Machines -/

structure Agrees (l : Listing) (on : CompId → Bool) (m : SingleMachine) : Prop where
  moves : ∀ role, ∃ legals, m.legalMoves role = .ok legals ∧
    (legals.map m.moveText).Perm ((l.movesIn on role).map Term.render)
  terminal : m.isTerminal = .ok (l.isTerminal on)
  goal : ∀ role, m.goalValue role = .ok (l.goalValue on role)
  /-- every base of the machine is one of the listing -/
  state : ∃ s, m.currentState = .ok s ∧ ∀ i b, m.net.bases[i]? = some b → ∃ b₀ ∈ l.withRole .base,
    (m.net.proposition? b).map (·.term) = (l.proposition? b₀).map (·.term) ∧ s.get i = on b₀

def Makes (m : SingleMachine) (moves : List Term) (legals : List CompId) : Prop :=
  legals.length = moves.length ∧ ∀ role c, legals[role]? = some c →
    (∃ cs, m.legalMoves role = .ok cs ∧ c ∈ cs) ∧ m.net.move? c = moves[role]?

def Follows (l : Listing) : List (List Term) → (CompId → Bool) → SingleMachine → Prop
  | [], on, m => l.Agrees on m
  | moves :: rest, on, m => l.Agrees on m ∧ (∃ legals, Makes m moves legals) ∧
      ∀ legals, Makes m moves legals → ∃ s m₁ m₂, m.nextState legals = .ok (s, m₁) ∧
        m₁.update s = .ok m₂ ∧ l.Follows rest (l.nextState on moves) m₂

section Machines

variable {l : Listing} {f : CompId → CompId} {net : Network} {on : CompId → Bool} {bits : List Bool}
  {m : SingleMachine} {role : Nat} {c : CompId} {t : Term} {moves : List Term} {legals : List CompId}

theorem showing_proposition? (hm : SingleMachine.Showing net bits [] m) (c : CompId) :
    m.net.proposition? c = net.proposition? c := by
  rw [hm.same]
  exact proposition?_of_kind? ((recounts_evaluated net bits []).kind? c)

theorem showing_move? (hm : SingleMachine.Showing net bits [] m) (c : CompId) :
    m.net.move? c = net.move? c := by rw [Network.move?, showing_proposition? hm, Network.move?]

section

variable (h : l.Rendering f net) (hs : InStep f net on bits)
include h hs

theorem Rendering.agrees_moves (hm : SingleMachine.Showing net bits [] m) (role : Nat) :
    ((net.legalsIn bits role).map m.moveText).Perm ((l.movesIn on role).map Term.render) := by
  refine ((h.legalsIn hs role).map _).trans (.of_eq ?_)
  rw [movesIn, List.map_map]
  have hmem : ∀ c ∈ l.legalsIn on role, c ∈ l.legalsOf role := fun c hc => (mem_filter.mp hc).1
  -- every legal has a move, and its text is the text of the machine
  generalize l.legalsIn on role = cs at hmem
  induction cs with
  | nil => rfl
  | cons c cs ih =>
    have hc := hmem c mem_cons_self
    obtain ⟨-, ⟨t, hmove⟩, -⟩ := mem_legalsOf.mp hc
    have htext : m.moveText (f c) = t.render := by
      have hnet : m.net.moveText? (f c) = (m.net.move? (f c)).map Term.render := rfl
      rw [SingleMachine.moveText, hnet, showing_move? hm, h.move? hc hmove]
      rfl
    rw [map_cons, Function.comp_apply, htext, filterMap_cons_some (by rw [hmove]; rfl), map_cons,
      ih (forall_mem_cons.mp hmem).2]

theorem Rendering.goalIn (role : Nat) : net.goalIn bits role = l.goalValue on role := by
  have hgoals : net.goalIn bits role = (((net.players[role]?).elim [] (·.goals)).find?
      (net.eval (net.reading bits []))).bind fun g => (net.proposition? g).bind (·.goal) := by
    rw [Network.goalIn]
    cases net.players[role]? <;> rfl
  have hrole : ∀ g ∈ l.goalsOf role, g ∈ l.withRole .goal ∧ net.isRole (f g) .goal = true := by
    intro g hg
    have hmem : f g ∈ (net.players[role]?).elim [] (·.goals) := h.goals role ▸ mem_map_of_mem hg
    exact ⟨(mem_filter.mp hg).1, h.finished.formed.goal _ (mem_flatMap_of_elim hmem)⟩
  have hvalues : (l.goalsOf role).find? (net.eval (net.reading bits []) ∘ f) =
      (l.goalsOf role).find? (l.value (.quiet on)) :=
    find?_congr fun g hg => h.eval_quiet hs (hrole g hg).1 (hrole g hg).2
  rw [hgoals, h.goals, find?_map, hvalues, goalValue]
  cases hfind : (l.goalsOf role).find? (l.value (.quiet on)) with
  | none => rfl
  | some g =>
    obtain ⟨hlisted, hgoal⟩ := hrole g (mem_of_find?_eq_some hfind)
    obtain ⟨p, q, hp, hq, hsame⟩ := h.proposition? hlisted hgoal
    have hvalue := congrArg Proposition.goal hsame
    rw [map_some, bind_some, bind_some, hp, hq]
    exact hvalue

theorem Rendering.agrees (hm : SingleMachine.Showing net bits [] m) : l.Agrees on m := by
  have hprimed := h.finished.primed
  have hcast := h.finished.formed.toCast
  refine ⟨fun role => ⟨_, hm.legalMoves hprimed hcast role, h.agrees_moves hs hm role⟩, ?_, fun role => ?_,
    .ofBools bits, hm.currentState hprimed hs.length_eq.symm, fun i b hb => ?_⟩
  · obtain ⟨t, ht, hterm⟩ := h.terminal
    have hmem : t ∈ l.withRole .terminal := ht ▸ mem_singleton_self t
    have hrole := hcast.terminal
    rw [hterm] at hrole
    rw [hm.isTerminal hprimed hcast, hterm, h.eval_quiet hs hmem hrole, Listing.isTerminal, ht, any_cons,
      any_nil, Bool.or_false]
  · rw [hm.goalValue hprimed hcast, h.goalIn hs]
  rw [hm.same] at hb
  have hb : net.bases[i]? = some b := hb
  have hmem := mem_of_getElem? hb
  obtain ⟨b₀, hb₀, rfl⟩ := h.base b hmem
  obtain ⟨p, q, hp, hq, hsame⟩ := h.proposition? hb₀ (hcast.base _ hmem).1
  have hterm := congrArg Proposition.term hsame
  refine ⟨b₀, hb₀, ?_, ?_⟩
  · rw [showing_proposition? hm, hp, hq]
    exact congrArg some hterm
  obtain ⟨hlt, hget⟩ := List.getElem?_eq_some_iff.mp hb
  have hlt' : i < bits.length := hs.length_eq ▸ hlt
  rw [BaseState.get_ofBools, getD_eq_getElem?_getD, getElem?_eq_getElem hlt', getD_some]
  exact hs.get hlt hlt' b₀ hget

end

/-! ### One turn -/

theorem Rendering.rows_of_makes (h : l.Rendering f net) (hs : InStep f net on bits)
    (hm : SingleMachine.Showing net bits [] m) (hmk : Makes m moves legals) (hc : legals[role]? = some c) :
    c ∈ net.legalsIn bits role ∧ ∃ c₀ t, c = f c₀ ∧ c₀ ∈ l.legalsOf role ∧
      l.moveOf? c₀ = some (role, t) ∧ moves[role]? = some t := by
  obtain ⟨⟨cs, hcs, hmem⟩, hmove⟩ := hmk.2 role c hc
  rw [hm.legalMoves h.finished.primed h.finished.formed.toCast] at hcs
  obtain rfl := Except.ok.inj hcs
  obtain ⟨c₀, hc₀, rfl⟩ := mem_map.mp ((h.legalsIn hs role).mem_iff.mp hmem)
  have hof := (mem_filter.mp hc₀).1
  obtain ⟨-, ⟨t, ht⟩, -⟩ := mem_legalsOf.mp hof
  refine ⟨hmem, c₀, t, rfl, hof, ht, ?_⟩
  rw [← hmove, showing_move? hm, h.move? hof ht]

theorem exists_of_chosen {i : CompId} (hi : l.chosen moves i) :
    ∃ r t, l.moveOf? i = some (r, t) ∧ moves[r]? = some t := by
  obtain ⟨move, hmove, ht⟩ := (Option.any_eq_true ..).mp hi
  exact ⟨move.1, move.2, hmove, beq_iff_eq.mp ht⟩

theorem Joint.exists_legal (hj : l.Joint on moves) (ht : moves[role]? = some t) :
    ∃ c ∈ l.legalsIn on role, l.moveOf? c = some (role, t) := by
  have hlt : role < l.roles.length := by
    obtain ⟨hlt, -⟩ := List.getElem?_eq_some_iff.mp ht
    rwa [← hj.length_eq, length_range] at hlt
  have hmem : t ∈ l.movesIn on role := forall₂_getElem? hj (getElem?_range hlt) ht
  obtain ⟨c, hc, hct⟩ := mem_filterMap.mp hmem
  obtain ⟨-, ⟨t', hmove⟩, -⟩ := mem_legalsOf.mp (mem_filter.mp hc).1
  rw [hmove, map_some, Option.some.injEq] at hct
  exact ⟨c, hc, hct ▸ hmove⟩

theorem Rendering.permits (h : l.Rendering f net) (hj : l.Joint on moves) :
    l.Permits ⟨on, l.chosen moves⟩ := by
  intro i hi hdoes
  obtain ⟨r, t, hmove, ht⟩ := exists_of_chosen hdoes
  obtain ⟨c, hc, hsame⟩ := hj.exists_legal ht
  obtain ⟨hof, hvalue⟩ := mem_filter.mp hc
  have hlegal := (mem_legalsOf.mp hof).1
  exact ⟨c, hlegal, (h.inputFor c hlegal i).mpr ⟨hi, hmove.trans hsame.symm⟩, hvalue⟩

theorem Rendering.exists_makes (h : l.Rendering f net) (hs : InStep f net on bits)
    (hm : SingleMachine.Showing net bits [] m) (hj : l.Joint on moves) : ∃ legals, Makes m moves legals := by
  have hlegal : ∀ role : Fin moves.length, ∃ c ∈ net.legalsIn bits role, m.net.move? c = moves[role.1]? := by
    intro role
    have ht := getElem?_eq_getElem role.2
    obtain ⟨c, hc, hmove⟩ := hj.exists_legal ht
    refine ⟨f c, (h.legalsIn hs role).mem_iff.mpr (mem_map_of_mem hc), ?_⟩
    rw [showing_move? hm, h.move? (mem_filter.mp hc).1 hmove, ht]
  choose g hg using hlegal
  refine ⟨List.ofFn g, length_ofFn, fun role c hc => ?_⟩
  rw [List.getElem?_ofFn] at hc
  split at hc
  · next hlt =>
    obtain rfl := Option.some.inj hc
    exact ⟨⟨_, hm.legalMoves h.finished.primed h.finished.formed.toCast role, (hg ⟨role, hlt⟩).1⟩,
      (hg ⟨role, hlt⟩).2⟩
  · cases hc

theorem Rendering.chosen_eq (h : l.Rendering f net) (hlen : legals.length = moves.length)
    (hrows : ∀ role c, legals[role]? = some c → ∃ c₀ t, c = f c₀ ∧ c₀ ∈ l.legalsOf role ∧
      l.moveOf? c₀ = some (role, t) ∧ moves[role]? = some t) {i : CompId}
    (hi : net.isRole (f i) .input) : (net.chosen legals).contains (f i) = l.chosen moves i := by
  have hpaired : ∀ {c₀ role}, c₀ ∈ l.legalsOf role → net.pairedInput? (f c₀) = (l.inputFor? c₀).map f :=
    fun hof => h.paired _ (mem_legalsOf.mp hof).1 (h.mem_legals hof)
  rw [Bool.eq_iff_iff, contains_iff_mem]
  constructor
  · intro hmem
    obtain ⟨c, hc, hpair⟩ := mem_filterMap.mp hmem
    obtain ⟨role, hrole⟩ := getElem?_of_mem hc
    obtain ⟨c₀, t, rfl, hof, hmove, ht⟩ := hrows role c hrole
    rw [hpaired hof] at hpair
    obtain ⟨j, hj, hij⟩ := map_eq_some_iff.mp hpair
    obtain rfl := h.injective hij
    have hsame := ((h.inputFor c₀ (mem_legalsOf.mp hof).1 j).mp hj).2
    rw [Listing.chosen, hsame, hmove]
    exact beq_iff_eq.mpr ht
  · intro hchosen
    obtain ⟨r, t, hmove, ht⟩ := exists_of_chosen hchosen
    obtain ⟨hlt, -⟩ := List.getElem?_eq_some_iff.mp ht
    have hget := getElem?_eq_getElem (hlen ▸ hlt : r < legals.length)
    obtain ⟨c₀, t', hc, hof, hmove', ht'⟩ := hrows r _ hget
    obtain rfl : t = t' := Option.some.inj (ht.symm.trans ht')
    refine mem_filterMap.mpr ⟨_, mem_of_getElem? hget, ?_⟩
    have hfor := (h.inputFor c₀ (mem_legalsOf.mp hof).1 i).mpr ⟨h.input i hi, hmove.trans hmove'.symm⟩
    rw [hc, hpaired hof, hfor]
    rfl

theorem showing_update (hp : net.Primed) (hm : SingleMachine.Showing net bits [] m) {bits' : List Bool}
    (hlen : bits'.length = net.bases.length) :
    (m.update (.ofBools bits')).Yields (SingleMachine.Showing net bits' []) := by
  obtain ⟨m', hset, hm', -⟩ := hm.setState hp (.ofBools bits')
  rw [bitsOf_ofBools hlen] at hm'
  refine ⟨m', ?_, hm'⟩
  have hbases : m.net.bases = net.bases := by rw [hm.same]; rfl
  rw [SingleMachine.update, SingleMachine.checkState, hbases, if_pos (by rw [BaseState.size_ofBools, hlen])]
  exact hset

section

variable (h : l.Rendering f net) (hs : InStep f net on bits)
  (hm : SingleMachine.Showing net bits [] m)
include h hs hm

theorem Rendering.offers_of_makes (hmk : Makes m moves legals) (hc : c ∈ legals) : net.offers bits c := by
  obtain ⟨role, hrole⟩ := getElem?_of_mem hc
  obtain ⟨hin, c₀, t, rfl, hof, -, -⟩ := h.rows_of_makes hs hm hmk hrole
  obtain ⟨hlegal, -, i, hi⟩ := mem_legalsOf.mp hof
  rw [legalsIn_eq_filter] at hin
  have hmem := h.mem_legals hof
  rw [Network.offers, contains_of_isRole (h.finished.formed.legal _ hmem).1, (mem_filter.mp hin).2,
    h.paired c₀ hlegal hmem, hi]
  rfl

theorem Rendering.nodup_of_makes (hmk : Makes m moves legals) : legals.Nodup := by
  rw [nodup_iff_pairwise_ne, pairwise_iff_getElem]
  intro i j hi hj hij heq
  obtain ⟨-, c, t, hc, -, hmove, -⟩ := h.rows_of_makes hs hm hmk (getElem?_eq_getElem hi)
  obtain ⟨-, c', t', hc', -, hmove', -⟩ := h.rows_of_makes hs hm hmk (getElem?_eq_getElem hj)
  obtain rfl := h.injective ((hc.symm.trans heq).trans hc')
  rw [hmove, Option.some.injEq, Prod.mk.injEq] at hmove'
  exact absurd hmove'.1 (Nat.ne_of_lt hij)

/-- A joint move is accepted, and leaves the machine in step with the listing. -/
theorem Rendering.turn (hj : l.Joint on moves) (hmk : Makes m moves legals) :
    ∃ s m₁ m₂ bits', m.nextState legals = .ok (s, m₁) ∧ m₁.update s = .ok m₂ ∧
      InStep f net (l.nextState on moves) bits' ∧ SingleMachine.Showing net bits' [] m₂ := by
  have hprimed := h.finished.primed
  have hrefused : (legals.find? fun c => !net.offers bits c) = none := by
    rw [find?_eq_none]
    intro c hc
    rw [h.offers_of_makes hs hm hmk hc]
    exact Bool.false_ne_true
  -- level by level, an input that is chosen twice is counted twice
  have hapart : m.strategy = .byLevel → (net.chosen legals).Nodup :=
    Request.Distinct.apart h.finished.formed.toCast (r := .call (.next legals))
      (h.nodup_of_makes hs hm hmk) m.strategy
  have hnext := hm.nextState hprimed hapart
  rw [hrefused, elim_none] at hnext
  obtain ⟨⟨s, m₁⟩, hstep, rfl, hm₁, -⟩ := hnext
  have hlen : (net.transitions.map (net.eval (net.reading bits (net.chosen legals)))).length =
      net.bases.length := by rw [length_map, h.driven.length_eq]
  obtain ⟨m₂, hup, hm₂⟩ := showing_update hprimed hm₁ hlen
  refine ⟨_, m₁, m₂, _, hstep, hup, ?_, hm₂⟩
  rw [InStep, forall₂_map_right_iff]
  refine h.driven.imp fun b t hbt b₁ hb₁ => ?_
  obtain ⟨b₀, t₀, rfl, rfl, hop, hafter⟩ := hbt
  obtain rfl := h.injective hb₁
  rw [nextState, hafter]
  exact h.eval hs (h.permits hj) (SingleMachine.choosable_chosen hprimed legals)
    (fun i hi => h.chosen_eq hmk.1 (fun role c hc => (h.rows_of_makes hs hm hmk hc).2) hi) hop rfl

end

theorem Rendering.follows (h : l.Rendering f net) (play : List (List Term)) :
    ∀ {on : CompId → Bool} {bits : List Bool} {m : SingleMachine}, InStep f net on bits →
      SingleMachine.Showing net bits [] m → l.Plays on play → l.Follows play on m := by
  induction play with
  | nil => exact fun hs hm _ => h.agrees hs hm
  | cons moves rest ih =>
    intro on bits m hs hm hplay
    obtain ⟨hj, hrest⟩ := hplay
    refine ⟨h.agrees hs hm, h.exists_makes hs hm hj, fun legals hmk => ?_⟩
    obtain ⟨s, m₁, m₂, bits', hstep, hup, hs', hm₂⟩ := h.turn hs hm hj hmk
    exact ⟨s, m₁, m₂, hstep, hup, ih hs' hm₂ hrest⟩

end Machines

/-- At every level and with every fan-in, a compiled network is played as its listing says, whichever way it is
evaluated: at every turn of every play the machine has the moves, the goals and the end of the game that the
rows give. -/
theorem follows_of_compile (l : Listing) (hb : l.Balanced) (ha : l.Acyclic) (opts : Options)
    (hi : opts.level ≠ .raw → l.InitUndriven) {net : Network} (h : (l.compile opts).listen.1 = .ok net)
    (strategy : Strategy) : ∃ m, SingleMachine.new net strategy = .ok m ∧
      ∀ play, l.Plays l.initialState play → l.Follows play l.initialState m := by
  obtain ⟨cut, last, hc⟩ := compiled_of_ok hb ha h
  have hinit : l.InitUndriven := by
    by_cases hraw : opts.level = .raw
    · exact hc.initUndriven hraw
    · exact hi hraw
  obtain ⟨flat, pairs, built, kept, f, hbuilt, hkept, hre⟩ := hc.kept hb ha hinit
  have hr := hkept.rendering hbuilt hre
  obtain ⟨m, hm, hshow, -⟩ := SingleMachine.new_yields hr.finished.primed strategy
  rw [bitsOf_ofBools hr.start.length_eq.symm] at hshow
  exact ⟨m, hm, fun play hplay => hr.follows play hr.start hshow hplay⟩

/-- The baton is passed to the right hand and back. -/
theorem follows_of_compile_relay : ∃ net m, (relay.compile { level := .full, maxFanIn := 2 }).listen.1 = .ok net ∧
    SingleMachine.new net .byLevel = .ok m ∧
    relay.Plays relay.initialState [[.atom "pass"], [.atom "pass"]] ∧
    relay.Follows [[.atom "pass"], [.atom "pass"]] relay.initialState m ∧
    relay.goalValue relay.initialState 0 = none ∧
    relay.goalValue (relay.nextState relay.initialState [.atom "pass"]) 0 = some 100 := by
  have hok : (relay.compile { level := .full, maxFanIn := 2 }).listen.1.isOk = true := by decide +kernel
  obtain ⟨net, hnet⟩ := Checked.exists_of_isOk hok
  obtain ⟨m, hm, hfollows⟩ := follows_of_compile relay relay_balanced relay_acyclic _
    (fun _ => by decide +kernel) hnet .byLevel
  have hpass : ∀ {on}, .atom "pass" ∈ relay.movesIn on 0 → relay.Joint on [.atom "pass"] :=
    fun hmem => .cons hmem .nil
  have hplays : relay.Plays relay.initialState [[.atom "pass"], [.atom "pass"]] :=
    ⟨hpass (by decide +kernel), hpass (by decide +kernel), trivial⟩
  exact ⟨net, m, hnet, hm, hplays, hfollows _ hplays, by decide +kernel, by decide +kernel⟩

def spark : Listing where
  roles := ["hand"]
  components := #[
    { id := 0, count := 0, op := .transition, inputs := [2], outputs := [1] },
    { id := 1, count := 0, op := .proposition, inputs := [0], outputs := [4]
      label := some (.base, "(true lit)") },
    { id := 2, count := 0, op := .proposition, inputs := [3], outputs := [0], label := some (.init, "init") },
    { id := 3, count := 0, op := .constant, outputs := [2] },
    { id := 4, count := 0, op := .proposition, inputs := [1], label := some (.terminal, "terminal") }]

/-- An init that is driven reads what drives it: the light is on by the rows, and off in the machine. -/
theorem spark_starts_dark : spark.Balanced ∧ spark.Acyclic ∧ spark.withRole .base = [1] ∧
    spark.Plays spark.initialState [] ∧ ∃ net m, (spark.compile { level := .fast }).listen.1 = .ok net ∧
      SingleMachine.new net .depthFirst = .ok m ∧ spark.isTerminal spark.initialState = true ∧
      m.isTerminal = .ok false ∧ ¬ spark.Follows [] spark.initialState m := by
  have hranked : spark.Ranked fun c => [2, 0, 1, 0, 1].getD c 0 := by decide +kernel
  have hmachine : (do
      let net ← (spark.compile { level := .fast }).listen.1
      let m ← SingleMachine.new net .depthFirst
      m.isTerminal : Checked Bool) = .ok false := by decide +kernel
  obtain ⟨net, hnet, hmachine⟩ := exists_of_bind_eq_ok hmachine
  obtain ⟨m, hm, hdark⟩ := exists_of_bind_eq_ok hmachine
  have hlit : spark.isTerminal spark.initialState = true := by decide +kernel
  refine ⟨by decide +kernel, hranked.acyclic, by decide +kernel, trivial, net, m, hnet, hm, hlit, hdark,
    fun hfollows => ?_⟩
  have hsame := hdark.symm.trans (hlit ▸ hfollows.terminal)
  cases hsame

end Listing

end GameNet
