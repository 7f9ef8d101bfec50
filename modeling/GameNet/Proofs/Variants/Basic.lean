import GameNet.Proofs.Requests
import Mathlib.Data.List.Find

/-!
Networks that are made from a compiled one, and take its place in play.

A variant gives the answers of the network that it was made from, in the positions that it was made for.
-/

namespace GameNet

open List Option

namespace Network

/-! ## Other players -/

section Reseat

variable {net : Network} {P : Position → Prop} {ref : Position → CompId → Bool}

theorem Answers.reseat (h : net.Answers P ref) (players : List Player) (fixedBase : Option CompId) :
    Answers { net with players, fixedBase } P ref where
  coherent := h.coherent
  rested := h.rested
  lawful := ⟨h.lawful.quiet, h.lawful.legal⟩
  fits p hp := by
    obtain ⟨v, hv, href⟩ := h.fits p hp
    exact ⟨v, ⟨hv.obeys, hv.sources⟩, href⟩

theorem Trimming.reseat (h : Trimming net) {players : List Player} (fixedBase : Option CompId)
    (hlegals : players.flatMap (·.legals) = net.legals)
    (hgoals : ∀ g ∈ players.flatMap (·.goals), g ∈ net.goals) :
    Trimming { net with players, fixedBase } where
  formed :=
    { toCast := h.formed.toCast.congr (fun _ => rfl) (fun _ => rfl) (fun _ => rfl) (.refl _)
        h.formed.driven (fun _ => Iff.rfl) (fun l => by rw [← hlegals]; rfl) hgoals rfl rfl
      balanced := h.formed.balanced
      acyclic := h.formed.acyclic
      shaped := h.formed.shaped }
  seeded := ⟨h.seeded.base, h.seeded.input, h.seeded.constant⟩
  ended l hl := h.ended l (hlegals ▸ hl)
  narrow := h.narrow

end Reseat

/-! ## A network answers for itself -/

section Truth

variable {net : Network} {bits : List Bool} {on legals : List CompId} {c : CompId}

def position (net : Network) (bits : List Bool) (on : List CompId) : Position :=
  ⟨fun b => (net.bases.idxOf? b).elim false (bits.getD · false), fun i => on.contains i⟩

theorem shows_position (net : Network) (bits : List Bool) (on : List CompId) :
    net.Shows (net.position bits on) bits on :=
  ⟨fun b i hi => by simp only [position, hi, elim_some], fun _ _ => rfl⟩

theorem position_of_bases {net' : Network} (h : net'.bases = net.bases) (bits : List Bool)
    (on : List CompId) : net'.position bits on = net.position bits on := by rw [position, position, h]

def Permits (net : Network) (p : Position) : Prop :=
  ∀ i, net.isRole i .input = true → p.does i = true →
    ∃ l, net.pairedInput? l = some i ∧ net.truth p.quiet l = true

theorem permits_quiet (net : Network) (p : Position) : net.Permits p.quiet :=
  fun _ _ h => absurd h Bool.false_ne_true

theorem Primed.permits (hp : net.Primed) (h : ∀ l ∈ legals, net.offers bits l) :
    net.Permits (net.position bits (net.chosen legals)) := by
  intro i _ hdoes
  obtain ⟨l, hl, hi⟩ := mem_filterMap.mp (contains_iff_mem.mp hdoes)
  have hoff := h l hl
  simp only [offers, Bool.and_eq_true] at hoff
  refine ⟨l, hi, ?_⟩
  rw [← hoff.1.2, hp.eval_reading (net.shows_position bits []) net.choosable_nil hoff.1.1]
  rfl

theorem Finished.answers (h : net.Finished) {P : Position → Prop} (hquiet : ∀ p, P p → P p.quiet)
    (hP : ∀ p, P p → net.Permits p) : net.Answers P net.truth where
  coherent := h.tallied.coherent h.standard
  rested := h.resting.rested h.fitted
  lawful := ⟨hquiet, hP⟩
  fits p _ := ⟨net.truth p, ⟨obeys_eval h.formed.balanced h.formed.acyclic _,
    fun _ _ hi => eval_of_source _ hi⟩, fun _ _ _ _ => rfl⟩

end Truth

/-! ## Settling -/

section Settle

variable {net net' : Network} {c : CompId}

structure Readied (net net' : Network) : Prop where
  finished : net'.Finished
  parts : { net'.parts with levels := [] } = { net.parts with levels := [] }
  kind : ∀ c, net'.kind? c = net.kind? c
  truth : ∀ P ref, net.Answers P ref → ∀ p, P p → ∀ c op, net.op? c = some op → op.isGate = false →
    net'.truth p c = ref p c

theorem Readied.field {α : Type} (h : Readied net net') (f : Network → α)
    (hf : ∀ net : Network, f { net.parts with levels := [] } = f net := by intro; rfl) :
    f net' = f net := by
  rw [← hf, h.parts, hf]

theorem Relevels.kind? (h : Relevels net net') (c : CompId) : net'.kind? c = net.kind? c := by
  obtain ⟨level, hc⟩ := h.component c
  rw [Network.kind?, Network.kind?, hc]
  cases net.get? c <;> rfl

theorem Relevels.truth (h : Relevels net net') (hf : net.Formed) (p : Position)
    (hc : net.contains c) : net'.truth p c = net.truth p c :=
  h.renames.truth hf (fun _ _ => rfl) (fun _ _ => rfl) hc

theorem settle_ensures (hf : net.Formed) (hfit : net.Fitted) (hs : net.Seeded) (he : net.Ended)
    (opts : Options) : (net.settle opts).Ensures (Readied net) := by
  refine .bind (.lift (recount_ensures hf.acyclic net.sinks false)) fun counted hr => ?_
  refine .bind (schedule_ensures counted) fun leveled hl => ?_
  obtain ⟨hlevel, hu⟩ := hl
  have hfin := hr.finished hf hfit hs he hu
  refine .bind .trivial fun _ _ => .pure ?_
  refine ⟨hlevel.renames.finished hfin, ?_, fun c => ?_, fun P ref ha p hP c op hop hg => ?_⟩
  · rw [hlevel.parts, hr.recounts.parts]
  · rw [hlevel.kind?, hr.recounts.kind?]
  have hop' : counted.op? c = some op := (hr.recounts.op? c).trans hop
  rw [hlevel.truth hfin.formed p (contains_of_op? hop')]
  exact (hr.answers hf hfit hfin.tallied ha).truth_eq hfin.formed.balanced hfin.formed.acyclic hP hop' hg

end Settle

/-! ## Variants -/

/-- Where the bases are as they should be, both networks offer the same moves and go to the same states. -/
structure PlaysLike (Q : (CompId → Bool) → Prop) (net net' : Network) : Prop where
  finished : net'.Finished
  bases : net'.bases = net.bases
  transitions : net'.transitions = net.transitions
  start : net'.initialState = net.initialState
  terminal : net'.terminal = net.terminal
  legals : ∀ role : Nat, (net'.players[role]?).map (·.legals) = (net.players[role]?).map (·.legals)
  kind : ∀ l ∈ net.legals, net'.kind? l = net.kind? l
  truth : ∀ p, net.Permits p → Q p.on → ∀ c, c ∈ net.legals ∨ c ∈ net.transitions ∨ c = net.terminal →
    net'.truth p c = net.truth p c

structure ScoresLike (Q : (CompId → Bool) → Prop) (net net' : Network) : Prop where
  finished : net'.Finished
  bases : net'.bases = net.bases
  goals : ∀ role : Nat, (net'.players[role]?).map (·.goals) = (net.players[role]?).map (·.goals)
  kind : ∀ g ∈ net.goals, net'.kind? g = net.kind? g
  truth : ∀ p : Position, Q p.on → ∀ g ∈ net.goals, net'.truth p.quiet g = net.truth p.quiet g

section Variants

variable {Q : (CompId → Bool) → Prop} {net net' : Network} {bits : List Bool} {c l : CompId}

theorem contains_of_kind? (h : net'.kind? c = net.kind? c) (hc : net.contains c) : net'.contains c := by
  obtain ⟨k, hk⟩ := contains_iff.mp hc
  rw [Network.kind?, Network.kind?, hk, map_some] at h
  obtain ⟨k', hk', -⟩ := map_eq_some_iff.mp h
  exact contains_of_get? hk'

def SameKinds (net net' : Network) : Prop :=
  ∀ c, net.contains c = true → net'.contains c = true → net'.kind? c = net.kind? c

theorem Keeps.sameKinds (h : Keeps net net') : SameKinds net net' := fun _ hc hc' => h.kind? hc hc'

theorem Readied.sameKinds {last : Network} (h : Readied last net') (hk : SameKinds net last) :
    SameKinds net net' := fun c hc hc' =>
  (h.kind c).trans (hk c hc (contains_of_kind? (h.kind c).symm hc'))

/-- A later network that has kept its answers in some positions plays like the first one there. -/
theorem Readied.playsLike {last : Network} (h : Readied last net') (hfin : net.Finished)
    (hk : SameKinds net last) (hbases : last.bases = net.bases) (htrans : last.transitions = net.transitions)
    (hstart : last.initialState = net.initialState) (hterm : last.terminal = net.terminal)
    (hlegals : ∀ role : Nat, (last.players[role]?).map (·.legals) = (net.players[role]?).map (·.legals))
    (ha : last.Answers (fun p => net.Permits p ∧ Q p.on) net.truth) : PlaysLike Q net net' := by
  have hmap : last.players.map (·.legals) = net.players.map (·.legals) := by
    refine ext_getElem? fun role => ?_
    rw [getElem?_map, getElem?_map]
    exact hlegals role
  have heq : net'.legals = net.legals := by
    rw [h.field Network.legals, Network.legals, Network.legals, flatMap_def, flatMap_def, hmap]
  have hlegal : ∀ l ∈ net.legals, net'.isRole l .legal := fun l hl =>
    (h.finished.formed.legal l (heq ▸ hl)).1
  have hvalue : ∀ {p}, net.Permits p → Q p.on → ∀ {c op}, net'.op? c = some op → op.isGate = false →
      net'.truth p c = net.truth p c := fun hp hQ c op hop hg =>
    h.truth _ _ ha _ ⟨hp, hQ⟩ c op ((op?_of_kind?_eq (h.kind c)).symm.trans hop) hg
  refine
    { finished := h.finished
      bases := (h.field Network.bases).trans hbases
      transitions := (h.field Network.transitions).trans htrans
      start := (h.field Network.initialState).trans hstart
      terminal := (h.field Network.terminal).trans hterm
      legals := fun role => by rw [h.field Network.players, hlegals]
      kind := fun l hl => h.sameKinds hk l (contains_of_isRole (hfin.formed.legal l hl).1)
        (contains_of_isRole (hlegal l hl))
      truth := fun p hp hQ c hc => ?_ }
  rcases hc with hl | ht | rfl
  · exact hvalue hp hQ (op?_of_isRole (hlegal c hl)) rfl
  · have ht' : c ∈ net'.transitions := by rwa [h.field Network.transitions, htrans]
    exact hvalue hp hQ (h.finished.formed.op?_of_transition ht') rfl
  · have hrole := h.finished.formed.terminal
    rw [h.field Network.terminal, hterm] at hrole
    exact hvalue hp hQ (op?_of_isRole hrole) rfl

theorem Readied.scoresLike {last : Network} (h : Readied last net') (hfin : net.Finished)
    (hk : SameKinds net last) (hbases : last.bases = net.bases)
    (hgoals : ∀ role : Nat, (last.players[role]?).map (·.goals) = (net.players[role]?).map (·.goals))
    {P : Position → Prop} {ref : Position → CompId → Bool} (ha : last.Answers P ref)
    (hP : ∀ p : Position, Q p.on → P p.quiet) (href : ∀ p, ∀ g ∈ net.goals, ref p g = net.truth p g) :
    ScoresLike Q net net' := by
  have hmap : last.players.map (·.goals) = net.players.map (·.goals) := by
    refine ext_getElem? fun role => ?_
    rw [getElem?_map, getElem?_map]
    exact hgoals role
  have heq : net'.goals = net.goals := by
    rw [h.field Network.goals, Network.goals, Network.goals, flatMap_def, flatMap_def, hmap]
  have hgoal : ∀ g ∈ net.goals, net'.isRole g .goal := fun g hg =>
    h.finished.formed.goal g (heq ▸ hg)
  exact
    { finished := h.finished
      bases := (h.field Network.bases).trans hbases
      goals := fun role => by rw [h.field Network.players, hgoals]
      kind := fun g hg => h.sameKinds hk g (contains_of_isRole (hfin.formed.goal g hg))
        (contains_of_isRole (hgoal g hg))
      truth := fun p hQ g hg => (h.truth P ref ha _ (hP p hQ) g _
        ((op?_of_kind?_eq (h.kind g)).symm.trans (op?_of_isRole (hgoal g hg))) rfl).trans (href _ g hg) }

section

variable (h : PlaysLike Q net net') (hfin : net.Finished)
include h hfin

theorem PlaysLike.eval_eq {on : List CompId} (hp : net.Permits (net.position bits on))
    (hQ : Q (net.position bits []).on) (hon : net.Choosable on) (hon' : net'.Choosable on)
    (hc : c ∈ net.legals ∨ c ∈ net.transitions ∨ c = net.terminal) (hlive : net.contains c)
    (hlive' : net'.contains c) : net'.eval (net'.reading bits on) c = net.eval (net.reading bits on) c := by
  rw [hfin.primed.eval_reading (net.shows_position bits on) hon hlive,
    h.finished.primed.eval_reading (net'.shows_position bits on) hon' hlive', position_of_bases h.bases]
  exact h.truth _ hp hQ c hc

theorem PlaysLike.eval_legal (hQ : Q (net.position bits []).on) (hl : l ∈ net.legals) :
    net'.eval (net'.reading bits []) l = net.eval (net.reading bits []) l := by
  have hlive := contains_of_isRole (hfin.formed.legal l hl).1
  exact h.eval_eq hfin (net.permits_quiet (net.position bits [])) hQ net.choosable_nil net'.choosable_nil
    (.inl hl) hlive (contains_of_kind? (h.kind l hl) hlive)

theorem PlaysLike.legalsIn (hQ : Q (net.position bits []).on) (role : Nat) :
    net'.legalsIn bits role = net.legalsIn bits role := by
  have hrole := h.legals role
  unfold Network.legalsIn
  cases hp : net.players[role]? with
  | none =>
    rw [hp, map_none, map_eq_none_iff] at hrole
    rw [hrole]
    rfl
  | some p =>
    rw [hp, map_some] at hrole
    obtain ⟨p', hp', heq⟩ := map_eq_some_iff.mp hrole
    rw [hp', elim_some, elim_some, heq]
    refine filter_congr fun l hl => h.eval_legal hfin hQ ?_
    exact mem_flatMap.mpr ⟨p, mem_of_getElem? hp, hl⟩

theorem PlaysLike.isTerminal (hQ : Q (net.position bits []).on) :
    net'.eval (net'.reading bits []) net'.terminal = net.eval (net.reading bits []) net.terminal := by
  have hlive' := contains_of_isRole h.finished.formed.terminal
  rw [h.terminal] at hlive' ⊢
  exact h.eval_eq hfin (net.permits_quiet (net.position bits [])) hQ net.choosable_nil net'.choosable_nil
    (.inr (.inr rfl)) (contains_of_isRole hfin.formed.terminal) hlive'

end

theorem ScoresLike.goalIn (h : ScoresLike Q net net') (hfin : net.Finished)
    (hQ : Q (net.position bits []).on) (role : Nat) : net'.goalIn bits role = net.goalIn bits role := by
  have hrole := h.goals role
  unfold Network.goalIn
  cases hp : net.players[role]? with
  | none =>
    rw [hp, map_none, map_eq_none_iff] at hrole
    rw [hrole]
    rfl
  | some p =>
    rw [hp, map_some] at hrole
    obtain ⟨p', hp', heq⟩ := map_eq_some_iff.mp hrole
    have hmem : ∀ g ∈ p.goals, g ∈ net.goals := fun g hg =>
      mem_flatMap.mpr ⟨p, mem_of_getElem? hp, hg⟩
    have hfind : p.goals.find? (net'.eval (net'.reading bits [])) =
        p.goals.find? (net.eval (net.reading bits [])) := by
      refine find?_congr fun g hg => ?_
      have hlive := contains_of_isRole (hfin.formed.goal g (hmem g hg))
      rw [hfin.primed.eval_reading (net.shows_position bits []) net.choosable_nil hlive,
        h.finished.primed.eval_reading (net'.shows_position bits []) net'.choosable_nil
          (contains_of_kind? (h.kind g (hmem g hg)) hlive), position_of_bases h.bases]
      exact h.truth _ hQ g (hmem g hg)
    rw [hp', bind_some, bind_some, heq, hfind]
    cases hg : p.goals.find? (net.eval (net.reading bits [])) with
    | none => rfl
    | some g =>
      rw [bind_some, bind_some,
        proposition?_of_kind? (h.kind g (hmem g (mem_of_find?_eq_some hg)))]

/-! ### Moves -/

theorem PlaysLike.pairedInput? (h : PlaysLike Q net net') (hl : l ∈ net.legals) :
    net'.pairedInput? l = net.pairedInput? l := pairedInput?_of_kind? (h.kind l hl)

theorem PlaysLike.offers (h : PlaysLike Q net net') (hfin : net.Finished)
    (hQ : Q (net.position bits []).on) (hl : l ∈ net.legals) : net'.offers bits l = net.offers bits l := by
  have hlive := contains_of_isRole (hfin.formed.legal l hl).1
  rw [Network.offers, Network.offers, hlive, contains_of_kind? (h.kind l hl) hlive,
    h.eval_legal hfin hQ hl, h.pairedInput? hl]

theorem unknownMove_of_kind? (h : net'.kind? l = net.kind? l) : net'.unknownMove l = net.unknownMove l := by
  have hprop := proposition?_of_kind? h
  rw [Network.proposition?, Network.proposition?] at hprop
  rw [unknownMove, unknownMove, moveText?, moveText?, hprop]

theorem PlaysLike.chosen (h : PlaysLike Q net net') {legals : List CompId}
    (hl : ∀ l ∈ legals, l ∈ net.legals) : net'.chosen legals = net.chosen legals :=
  filterMap_congr fun l hmem => h.pairedInput? (hl l hmem)

theorem PlaysLike.follow (h : PlaysLike Q net net') (hfin : net.Finished)
    (hQ : Q (net.position bits []).on) {legals : List CompId} (hl : ∀ l ∈ legals, l ∈ net.legals)
    (hoff : ∀ l ∈ legals, net.offers bits l) :
    net'.follow bits (net'.chosen legals) = net.follow bits (net.chosen legals) := by
  have hon' := SingleMachine.choosable_chosen h.finished.primed legals
  rw [h.chosen hl] at hon' ⊢
  rw [Network.follow, Network.follow, h.transitions]
  refine congrArg BaseState.ofBools (map_congr_left fun t ht => ?_)
  refine h.eval_eq hfin (hfin.primed.permits hoff) hQ (SingleMachine.choosable_chosen hfin.primed legals)
    hon' (.inr (.inl ht)) (contains_of_op? (hfin.formed.op?_of_transition ht)) ?_
  exact contains_of_op? (h.finished.formed.op?_of_transition (by rwa [h.transitions]))

end Variants

end Network

/-! ## Calls on variants -/

namespace Call

open Network

variable {Q : (CompId → Bool) → Prop} {net net' : Network} {bits : List Bool}

def Names (net : Network) : Call → Prop
  | .next legals => ∀ l ∈ legals, l ∈ net.legals
  | _ => True

theorem told_of_playsLike (h : PlaysLike Q net net') (hfin : net.Finished)
    (hQ : Q (net.position bits []).on) {call : Call} (hn : call.Names net) :
    call.told net' bits = call.told net bits := by
  have hgoing : ∀ s, going net' bits s = going net bits s := fun s => by
    rw [going, going, h.bases, bitsOf, bitsOf, h.bases]
  cases call with
  | update s => exact hgoing s
  | reset =>
    rw [told, told, h.start]
    exact hgoing _
  | next legals =>
    have hfind : (legals.find? fun l => !net'.offers bits l) = legals.find? fun l => !net.offers bits l :=
      find?_congr fun l hl => by rw [h.offers hfin hQ (hn l hl)]
    rw [told, told, hfind]
    cases hl : legals.find? fun l => !net.offers bits l with
    | none =>
      rw [find?_eq_none] at hl
      have hoff : ∀ l ∈ legals, net.offers bits l = true := fun l hmem => by
        have := hl l hmem
        rwa [Bool.not_eq_true, Bool.not_eq_false'] at this
      rw [elim_none, elim_none, h.follow hfin hQ hn hoff]
    | some l =>
      rw [elim_some, elim_some,
        unknownMove_of_kind? (h.kind l (hn l (mem_of_find?_eq_some hl)))]

end Call

def Request.Names (net : Network) : Request → Prop
  | .call c => c.Names net
  | _ => True

end GameNet
