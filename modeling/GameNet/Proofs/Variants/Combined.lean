import GameNet.Proofs.Variants.Seats

/-!
The machine over the parts of a split.

It goes to a state with the part whose base is on there, and refuses the state if there is none or there
are several.
-/

namespace GameNet

open List

namespace Network

section Controls

variable {net : Network} {controls : List CompId} {b : CompId} {s : BaseState}

def controlsOn (net : Network) (controls : List CompId) (s : BaseState) : List CompId :=
  controls.filter fun b => s.get (net.bases.idxOf b)

def soleControl (net : Network) (controls : List CompId) (s : BaseState) : Checked Unit :=
  match net.controlsOn controls s with
  | [_] => .ok ()
  | [] => .error (.play .noActiveNetwork)
  | on => .error (.play (.ambiguousNetwork on))

theorem idxOf?_of_mem (h : b ∈ net.bases) : net.bases.idxOf? b = some (net.bases.idxOf b) := by
  obtain ⟨i, hi⟩ := Option.ne_none_iff_exists'.mp fun hnone => (idxOf?_eq_none_iff.mp hnone) h
  rw [idxOf_eq_getD_idxOf?, hi, Option.getD_some]

theorem on_position (h : b ∈ net.bases) (s : BaseState) :
    (net.position (net.bitsOf s) []).on b = s.get (net.bases.idxOf b) := by
  have hlt := idxOf_lt_length_of_mem h
  simp only [position, idxOf?_of_mem h, Option.elim_some, bitsOf, getD_eq_getElem?_getD,
    getElem?_map, getElem?_range hlt, Option.map_some, Option.getD_some]

theorem sole_of_controlsOn (hsub : ∀ b ∈ controls, b ∈ net.bases)
    (h : net.controlsOn controls s = [b]) : Sole b controls (net.position (net.bitsOf s) []).on := by
  have hmem : ∀ b', b' ∈ controls ∧ s.get (net.bases.idxOf b') = true ↔ b' = b := fun b' => by
    have hf : b' ∈ net.controlsOn controls s ↔ b' ∈ controls ∧ s.get (net.bases.idxOf b') = true :=
      mem_filter
    rw [h, mem_singleton] at hf
    exact hf.symm
  have hb := (hmem b).mpr rfl
  refine ⟨(on_position (hsub b hb.1) s).trans hb.2, fun b' hb' hne => ?_⟩
  rw [on_position (hsub b' hb') s, Bool.eq_false_iff]
  exact fun hon => hne ((hmem b').mp ⟨hb', hon⟩)

end Controls

/-! ## What is told of a part -/

theorem PartOf.told {net part : Network} {controls : List CompId} {b : CompId} {bits : List Bool}
    (h : PartOf net controls b part) (hfin : net.Finished)
    (hsole : Sole b controls (net.position bits []).on) {r : Request} (hn : r.Names net) :
    r.told part bits = r.told net bits := by
  cases r with
  | call c => rw [Request.told, Request.told, c.told_of_playsLike h.plays hfin hsole hn]
  | legalMoves role => rw [Request.told, Request.told, h.plays.legalsIn hfin hsole]
  | isTerminal => rw [Request.told, Request.told, h.plays.isTerminal hfin hsole]
  | goalValue role => rw [Request.told, Request.told, h.scores.goalIn hfin hsole]
  | currentState => rfl

end Network

namespace CombinedMachine

open Network

structure Parted (Fits : CompId → Network → Prop) (net : Network) (controls : List CompId)
    (m : CombinedMachine) : Prop where
  size : m.parts.size = controls.length
  fits : ∀ (k : Nat) part, m.parts[k]? = some part → ∃ b net', controls[k]? = some b ∧
    Fits b net' ∧ Seat net b net' ∧ part.position = net.bases.idxOf b ∧
    ∃ bits, SingleMachine.Showing net' bits [] part.machine
  active : m.active < m.parts.size

structure Standing (Fits : CompId → Network → Prop) (net : Network) (controls : List CompId)
    (s : BaseState) (m : CombinedMachine) : Prop extends Parted Fits net controls m where
  now : ∃ b net', controls[m.active]? = some b ∧ Fits b net' ∧ Seat net b net' ∧
    net.controlsOn controls s = [b] ∧ SingleMachine.Showing net' (net.bitsOf s) [] m.current
  state : m.state = s

structure Showing (net : Network) (controls : List CompId) (bits : List Bool) (m : CombinedMachine) :
    Prop extends Parted (PartOf net controls) net controls m where
  now : ∃ b net', controls[m.active]? = some b ∧ PartOf net controls b net' ∧
    Sole b controls (net.position bits []).on ∧ SingleMachine.Showing net' bits [] m.current
  state : m.state = .ofBools bits
  goals : m.goals = none

section Parted

variable {Fits : CompId → Network → Prop} {net : Network} {controls : List CompId} {m : CombinedMachine}
  {s : BaseState}

theorem getElem?_current (h : m.active < m.parts.size) :
    ∃ part, m.parts[m.active]? = some part ∧ m.current = part.machine := by
  refine ⟨m.parts[m.active], Array.getElem?_eq_getElem h, ?_⟩
  rw [current, Array.getD_eq_getD_getElem?, Array.getElem?_eq_getElem h, Option.getD_some]

theorem bases_of_showing {net' : Network} {bits : List Bool} {m : SingleMachine}
    (h : SingleMachine.Showing net' bits [] m) : m.net.bases = net'.bases := by
  rw [h.same]
  rfl

section

variable (h : Parted Fits net controls m)
include h

theorem Parted.bases : m.current.net.bases = net.bases := by
  obtain ⟨part, hpart, hcur⟩ := getElem?_current h.active
  obtain ⟨b, net', -, -, hseat, -, bits, hshow⟩ := h.fits _ part hpart
  rw [hcur, bases_of_showing hshow, hseat.bases]

section

variable (hsub : ∀ b ∈ controls, b ∈ net.bases)
include hsub

theorem Parted.controlBase {k : Nat} {part : ControlMachine} (hk : m.parts[k]? = some part) :
    controls[k]? = some (controlBase part) ∧ part.position = net.bases.idxOf (controlBase part) := by
  obtain ⟨b, net', hb, -, hseat, hpos, bits, hshow⟩ := h.fits k part hk
  have hmem := hsub b (mem_of_getElem? hb)
  have hbase : CombinedMachine.controlBase part = b := by
    rw [CombinedMachine.controlBase, bases_of_showing hshow, hseat.bases, hpos,
      getElem?_eq_getElem (idxOf_lt_length_of_mem hmem), Option.getD_some, getElem_idxOf]
  rw [hbase]
  exact ⟨hb, hpos⟩

theorem Parted.map_controlBase : m.parts.toList.map CombinedMachine.controlBase = controls := by
  refine ext_getElem? fun k => ?_
  rw [getElem?_map, Array.getElem?_toList]
  cases hk : m.parts[k]? with
  | none =>
    rw [Array.getElem?_eq_none_iff, h.size] at hk
    rw [Option.map_none, getElem?_eq_none hk]
  | some part => rw [Option.map_some, (h.controlBase hsub hk).1]

theorem Parted.map_on (s : BaseState) :
    (m.parts.toList.zipIdx.filter fun x => s.get x.1.position).map (fun x =>
      CombinedMachine.controlBase x.1) = net.controlsOn controls s := by
  have hpos : ∀ part ∈ m.parts.toList, s.get part.position =
      s.get (net.bases.idxOf (CombinedMachine.controlBase part)) := fun part hpart => by
    obtain ⟨k, hk⟩ := mem_iff_getElem?.mp hpart
    rw [(h.controlBase hsub (Array.getElem?_toList ▸ hk)).2]
  calc (m.parts.toList.zipIdx.filter fun x => s.get x.1.position).map
        (fun x => CombinedMachine.controlBase x.1)
      = ((m.parts.toList.zipIdx.filter ((fun part => s.get part.position) ∘ Prod.fst)).map Prod.fst).map
          CombinedMachine.controlBase := by rw [map_map]; rfl
    _ = (m.parts.toList.filter fun part => s.get part.position).map CombinedMachine.controlBase := by
        rw [← filter_map, zipIdx_map_fst]
    _ = (m.parts.toList.filter ((fun b => s.get (net.bases.idxOf b)) ∘ CombinedMachine.controlBase)).map
          CombinedMachine.controlBase := by rw [filter_congr hpos]; rfl
    _ = net.controlsOn controls s := by rw [← filter_map, h.map_controlBase hsub, controlsOn]

theorem Parted.select (s : BaseState) :
    (∃ k b, m.select s = .ok k ∧ controls[k]? = some b ∧ net.controlsOn controls s = [b] ∧
      net.soleControl controls s = .ok ()) ∨
    ∃ e, m.select s = .error e ∧ net.soleControl controls s = .error e := by
  have hmap := h.map_on hsub s
  unfold CombinedMachine.select soleControl
  cases hon : m.parts.toList.zipIdx.filter fun x => s.get x.1.position with
  | nil =>
    rw [hon, map_nil] at hmap
    rw [← hmap]
    exact .inr ⟨_, rfl, rfl⟩
  | cons x on =>
    obtain ⟨part, k⟩ := x
    rw [hon, map_cons] at hmap
    rw [← hmap]
    cases on with
    | nil =>
      have hmem : (part, k) ∈ m.parts.toList.zipIdx.filter fun x => s.get x.1.position := by
        rw [hon]
        exact mem_cons_self
      have hk := mem_zipIdx_iff_getElem?.mp (mem_of_mem_filter hmem)
      exact .inl ⟨k, _, rfl, (h.controlBase hsub (Array.getElem?_toList ▸ hk)).1, rfl, rfl⟩
    | cons y on => exact .inr ⟨_, rfl, rfl⟩

end

end

end Parted

/-! ## Going to a state -/

section Update

variable {Fits : CompId → Network → Prop} {net : Network} {controls : List CompId} {m : CombinedMachine}
  {s : BaseState}

theorem Parted.setPart (h : Parted Fits net controls m) {k : Nat} {b : CompId} {net' : Network}
    {machine : SingleMachine} {bits : List Bool} (hk : controls[k]? = some b) (hfits : Fits b net')
    (hseat : Seat net b net') (hshow : SingleMachine.Showing net' bits [] machine) (s : BaseState) :
    Parted Fits net controls { m with parts := m.parts.modify k ({ · with machine }), active := k, state := s } ∧
      current { m with parts := m.parts.modify k ({ · with machine }), active := k, state := s } =
        machine := by
  have hlt : k < m.parts.size := by
    rw [h.size]
    exact (List.getElem?_eq_some_iff.mp hk).1
  refine ⟨⟨?_, fun j part hj => ?_, ?_⟩, ?_⟩
  · rw [Array.size_modify, h.size]
  · rw [Array.getElem?_modify] at hj
    split at hj
    · next hkj =>
      subst hkj
      obtain ⟨old, hold, rfl⟩ := Option.map_eq_some_iff.mp hj
      obtain ⟨b', -, hb', -, -, hpos, -⟩ := h.fits k old hold
      obtain rfl : b = b' := Option.some.inj (hk.symm.trans hb')
      exact ⟨b, net', hk, hfits, hseat, hpos, bits, hshow⟩
    · exact h.fits j part hj
  · rw [Array.size_modify]
    exact hlt
  · rw [current, Array.getD_eq_getD_getElem?, Array.getElem?_modify, if_pos rfl,
      Array.getElem?_eq_getElem hlt]
    rfl

theorem Parted.update (h : Parted Fits net controls m) (hsub : ∀ b ∈ controls, b ∈ net.bases)
    (hs : s.size = net.bases.length) : (m.update s).map (fun _ => ()) = net.soleControl controls s ∧
      ∀ m', m.update s = .ok m' → Standing Fits net controls s m' ∧ m'.goals = m.goals := by
  have hcheck : m.current.checkState s = .ok () := by
    rw [SingleMachine.checkState, h.bases, if_pos hs]
    rfl
  unfold CombinedMachine.update
  rw [hcheck]
  rcases h.select hsub s with ⟨k, b, hsel, hk, hon, hsoleControl⟩ | ⟨e, hsel, hsoleControl⟩
  · rw [hsel, hsoleControl]
    have hlt : k < m.parts.size := by
      rw [h.size]
      exact (List.getElem?_eq_some_iff.mp hk).1
    obtain ⟨b', net', hb', hfits, hseat, hpos, bits, hshow⟩ := h.fits k _ (Array.getElem?_eq_getElem hlt)
    obtain rfl : b = b' := Option.some.inj (hk.symm.trans hb')
    obtain ⟨machine, hset, hshow', -⟩ := hshow.setState hseat.finished.primed s
    have hget : (m.parts.getD k default).machine = m.parts[k].machine := by
      rw [Array.getD_eq_getD_getElem?, Array.getElem?_eq_getElem hlt, Option.getD_some]
    dsimp only [bind, Except.bind]
    rw [hget, hset]
    refine ⟨rfl, fun m' hm' => ?_⟩
    cases hm'
    have hbits : net'.bitsOf s = net.bitsOf s := by rw [bitsOf, bitsOf, hseat.bases]
    obtain ⟨hparted, hcur⟩ := h.setPart hk hfits hseat hshow' s
    refine ⟨⟨hparted, ⟨b, net', hk, hfits, hseat, hon, ?_⟩, rfl⟩, rfl⟩
    rw [hcur, ← hbits]
    exact hshow'
  · rw [hsel, hsoleControl]
    refine ⟨rfl, fun m' hm' => ?_⟩
    cases hm'

theorem Standing.showing (h : Standing (PartOf net controls) net controls s m)
    (hsub : ∀ b ∈ controls, b ∈ net.bases) (hgoals : m.goals = none)
    (hclean : .ofBools (net.bitsOf s) = s) : Showing net controls (net.bitsOf s) m := by
  obtain ⟨b, net', hk, hof, -, hon, hshow⟩ := h.now
  exact ⟨h.toParted, ⟨b, net', hk, hof, sole_of_controlsOn hsub hon, hshow⟩, h.state.trans hclean.symm,
    hgoals⟩

end Update

/-! ## Requests -/

section Requests

variable {net : Network} {controls : List CompId} {bits : List Bool} {m : CombinedMachine}

def Guided (net : Network) (controls : List CompId) : Request → Prop
  | .call (.update s) => s.size = net.bases.length →
      (∃ bits, s = .ofBools bits) ∧ net.soleControl controls s = .ok ()
  | .call .reset => net.soleControl controls (.ofBools net.initialState) = .ok ()
  | _ => True

theorem Showing.going (h : Showing net controls bits m) (hsub : ∀ b ∈ controls, b ∈ net.bases)
    {s : BaseState}
    (hs : s.size = net.bases.length → (∃ bits, s = .ofBools bits) ∧ net.soleControl controls s = .ok ())
    {c : Call} (ha : c.answer (.combined m) = do return (none, ← (Machine.combined m).update s)) :
    (c.answer (.combined m)).map (·.1) = (Call.going net bits s).1 ∧
      ∃ m', c.after (.combined m) = .combined m' ∧
        Showing net controls (Call.going net bits s).2 m' := by
  rw [Call.after, ha]
  dsimp only [Machine.update]
  unfold Call.going
  by_cases hsize : s.size = net.bases.length
  · obtain ⟨⟨made, rfl⟩, hsoleControl⟩ := hs hsize
    rw [BaseState.size_ofBools] at hsize
    obtain ⟨hup, hnext⟩ := h.toParted.update hsub (s := .ofBools made) (by rwa [BaseState.size_ofBools])
    rw [hsoleControl] at hup
    cases hm' : m.update (.ofBools made) with
    | error e =>
      rw [hm'] at hup
      cases hup
    | ok m' =>
      rw [BaseState.size_ofBools, if_pos hsize]
      obtain ⟨hstands, hgoals⟩ := hnext m' hm'
      exact ⟨rfl, m', rfl, hstands.showing hsub (hgoals.trans h.goals) (by rw [bitsOf_ofBools hsize])⟩
  · have hup : m.update s = .error (.play (.stateSize net.bases.length s.size)) := by
      rw [CombinedMachine.update, SingleMachine.checkState, h.bases, if_neg hsize]
      rfl
    rw [hup, if_neg hsize]
    exact ⟨rfl, m, rfl, h⟩

theorem answer_next (m : CombinedMachine) (legals : List CompId) :
    (Call.next legals).answer (.combined m) = ((Call.next legals).answer (.single m.current)).map fun x =>
      (x.1, .combined { m with parts := m.parts.modify m.active ({ · with machine := x.2.player }) }) := by
  dsimp only [Call.answer, Machine.nextState, CombinedMachine.nextState]
  cases m.current.nextState legals <;> rfl

theorem Showing.next (h : Showing net controls bits m) (hfin : net.Finished) {legals : List CompId}
    (hd : legals.Nodup) (hn : (Call.next legals).Names net) :
    ((Call.next legals).answer (.combined m)).map (·.1) = ((Call.next legals).told net bits).1 ∧
      ∃ m', (Call.next legals).after (.combined m) = .combined m' ∧
        Showing net controls ((Call.next legals).told net bits).2 m' := by
  obtain ⟨b, net', hk, hof, hsole, hshow⟩ := h.now
  have hdist : Request.Distinct (.call (.next legals)) := hd
  obtain ⟨hanswer, machine, hafter, -, hshow'⟩ := (Call.next legals).tracked hof.plays.finished.primed hshow
    (hdist.apart hof.plays.finished.formed.toCast _)
  rw [Call.told_of_playsLike hof.plays hfin hsole hn] at hanswer hshow'
  have hbits : ((Call.next legals).told net bits).2 = bits := by
    rw [Call.told]
    cases legals.find? fun l => !net.offers bits l <;> rfl
  rw [hbits] at hshow' ⊢
  rw [Call.after] at hafter ⊢
  rw [answer_next]
  cases ha : (Call.next legals).answer (.single m.current) with
  | error e =>
    rw [ha] at hanswer
    exact ⟨hanswer, m, rfl, h⟩
  | ok x =>
    rw [ha] at hanswer hafter
    have hx : x.2.player = machine := congrArg Machine.player hafter
    obtain ⟨hparted, hcur⟩ := h.toParted.setPart hk hof hof.seat hshow' m.state
    refine ⟨hanswer, { m with parts := m.parts.modify m.active ({ · with machine }) }, ?_,
      ⟨hparted, ⟨b, net', hk, hof, hsole, hcur.symm ▸ hshow'⟩, h.state, h.goals⟩⟩
    rw [← hx]
    rfl

def At (net : Network) (controls : List CompId) (bits : List Bool) (m : Machine) : Prop :=
  ∃ joint, m = .combined joint ∧ Showing net controls bits joint

theorem At.tracks {m : Machine} (h : At net controls bits m) (hfin : net.Finished)
    (hsub : ∀ b ∈ controls, b ∈ net.bases) {r : Request} (hd : r.Distinct) (hn : r.Names net)
    (hg : Guided net controls r) : m.Tracks net (At net controls) bits r := by
  have hstay := h
  obtain ⟨m, rfl, h⟩ := h
  obtain ⟨b, net', -, hof, hsole, hshow⟩ := h.now
  have hprimed := hof.plays.finished.primed
  have hcast := hof.plays.finished.formed.toCast
  cases r with
  | call c =>
    have hcall : (c.answer (.combined m)).map (·.1) = (c.told net bits).1 ∧
        At net controls (c.told net bits).2 (c.after (.combined m)) := by
      cases c with
      | update s => exact h.going hsub hg rfl
      | reset =>
        have hstart : (Machine.combined m).initialState = .ofBools net.initialState := by
          change BaseState.ofBools m.current.net.initialState = _
          rw [hshow.same]
          exact congrArg BaseState.ofBools hof.plays.start
        refine h.going hsub (s := .ofBools net.initialState) (fun _ => ⟨⟨_, rfl⟩, hg⟩) ?_
        rw [← hstart]
        rfl
      | next legals => exact h.next hfin hd hn
    exact .of_call hcall.1 hcall.2
  | legalMoves role =>
    have hask := Machine.ask_legalMoves (m := .combined m) hshow hprimed hcast role
    rw [hof.plays.legalsIn hfin hsole] at hask
    exact .of_ask hask hstay
  | isTerminal =>
    have hask := Machine.ask_isTerminal (m := .combined m) hshow hprimed hcast
    rw [hof.plays.isTerminal hfin hsole] at hask
    exact .of_ask hask hstay
  | goalValue role =>
    refine .of_goalValue ?_ hstay
    rw [Machine.goalValue, CombinedMachine.goalValue, h.goals]
    dsimp only
    rw [hshow.goalValue hprimed hcast, hof.scores.goalIn hfin hsole]
    rfl
  | currentState => exact .of_currentState (congrArg Except.ok h.state) hstay

theorem Showing.replies_eq (hfin : net.Finished) (hsub : ∀ b ∈ controls, b ∈ net.bases)
    (rs : List Request) (h : Showing net controls bits m)
    (hrs : ∀ r ∈ rs, r.Distinct ∧ r.Names net ∧ Guided net controls r) :
    (Machine.combined m).replies rs = Request.allTold net bits rs ∧
      ∃ bits' m', rs.foldl Machine.asked (.combined m) = .combined m' ∧ Showing net controls bits' m' :=
  Machine.replies_eq_allTold (A := At net controls) ⟨m, rfl, h⟩ fun r hr _ _ hat =>
    hat.tracks hfin hsub (hrs r hr).1 (hrs r hr).2.1 (hrs r hr).2.2

end Requests

/-! ## The machine of a split -/

section New

variable {Fits : CompId → Network → Prop} {net : Network} {controls : List CompId}
  {nets : List Network}

theorem part_yields {b : CompId} {net' : Network} (h : Seat net b net') (hb : b ∈ net.bases)
    (strategy : Strategy) : (part strategy net').Yields fun part => part.position = net.bases.idxOf b ∧
      SingleMachine.Showing net' (net'.bitsOf (.ofBools net'.initialState)) [] part.machine := by
  obtain ⟨machine, hnew, hshow, -⟩ := SingleMachine.new_yields h.finished.primed strategy
  have hpos : (net'.fixedBase.bind fun b => net'.bases.findIdx? (· == b)) = some (net.bases.idxOf b) := by
    rw [h.fixedBase, Option.bind_some, h.bases]
    exact idxOf?_of_mem hb
  refine ⟨⟨net.bases.idxOf b, machine⟩, ?_, rfl, hshow⟩
  rw [part, hpos]
  dsimp only
  rw [hnew]
  rfl

theorem parts_yields (hsub : ∀ b ∈ controls, b ∈ net.bases)
    (hnets : List.Forall₂ (fun b net' => Fits b net' ∧ Seat net b net') controls nets) (strategy : Strategy) :
    (nets.mapM (part strategy)).Yields (List.Forall₂ (fun b part => ∃ net', Fits b net' ∧ Seat net b net' ∧
      part.position = net.bases.idxOf b ∧ ∃ bits, SingleMachine.Showing net' bits [] part.machine)
      controls) := by
  refine (Checked.total.mapM (R := fun net' part => ∀ b, Seat net b net' →
    part.position = net.bases.idxOf b ∧ ∃ bits, SingleMachine.Showing net' bits [] part.machine)
    nets fun net' hnet' => ?_).mono fun parts hparts => ?_
  · obtain ⟨b, hb, -, hseat⟩ := exists_of_mem_right hnets hnet'
    refine (part_yields hseat (hsub b hb) strategy).mono fun part hpart b' hseat' => ?_
    obtain rfl : b = b' := Option.some.inj (hseat.fixedBase.symm.trans hseat'.fixedBase)
    exact ⟨hpart.1, _, hpart.2⟩
  · exact forall₂_comp hnets hparts fun b net' part hof hpart => ⟨net', hof.1, hof.2, hpart b hof.2⟩

def Scored (goals : Option Network) (m : CombinedMachine) : Prop :=
  Option.Rel (fun g machine => ∃ bits, SingleMachine.Showing g bits [] machine) goals m.goals

theorem goals_yields {goals : Option Network} (h : ∀ g ∈ goals, g.Primed) (strategy : Strategy) :
    (goals.mapM (SingleMachine.new · strategy)).Yields
      (Option.Rel (fun g machine => ∃ bits, SingleMachine.Showing g bits [] machine) goals) := by
  cases goals with
  | none => exact .pure .none
  | some g =>
    obtain ⟨machine, hnew, hshow, -⟩ := SingleMachine.new_yields (h g rfl) strategy
    refine ⟨some machine, ?_, .some ⟨_, hshow⟩⟩
    rw [Option.mapM_some, hnew]
    rfl

/-- A machine over the parts can be made just when there is a part for the initial state. -/
theorem new_parts (hsub : ∀ b ∈ controls, b ∈ net.bases)
    (hnets : List.Forall₂ (fun b net' => Fits b net' ∧ Seat net b net') controls nets)
    {goals : Option Network} (hgoals : ∀ g ∈ goals, g.Primed)
    (hwidth : net.initialState.length = net.bases.length) (strategy : Strategy) :
    (CombinedMachine.new nets goals strategy).map (fun _ => ()) =
        net.soleControl controls (.ofBools net.initialState) ∧
      ∀ m, CombinedMachine.new nets goals strategy = .ok m →
        Standing Fits net controls (.ofBools net.initialState) m ∧ Scored goals m := by
  obtain ⟨parts, hmap, hparts⟩ := parts_yields hsub hnets strategy
  obtain ⟨machine, hmachine, hscored⟩ := goals_yields hgoals strategy
  unfold CombinedMachine.new
  rw [hmap]
  cases parts with
  | nil =>
    cases hparts
    exact ⟨rfl, fun m hm => by cases hm⟩
  | cons first rest =>
    have hstart : first.machine.initialState = .ofBools net.initialState := by
      cases hparts with
      | cons hfirst _ =>
        obtain ⟨net', -, hseat, -, bits, hshow⟩ := hfirst
        rw [SingleMachine.initialState, hshow.same]
        exact congrArg BaseState.ofBools hseat.start
    have hparted : Parted Fits net controls
        ⟨(first :: rest).toArray, machine, 0, .ofBools net.initialState⟩ := by
      refine ⟨hparts.length_eq.symm, fun k part hk => ?_, Nat.zero_lt_succ _⟩
      have hk' : (first :: rest)[k]? = some part := by simpa using hk
      obtain ⟨hlt, -⟩ := List.getElem?_eq_some_iff.mp hk'
      have hb := getElem?_eq_getElem (hparts.length_eq ▸ hlt : k < controls.length)
      obtain ⟨net', hrest⟩ := forall₂_getElem? hparts hb hk'
      exact ⟨_, net', hb, hrest⟩
    have hsize : (BaseState.ofBools net.initialState).size = net.bases.length := by
      rw [BaseState.size_ofBools, hwidth]
    obtain ⟨hsoleControl, hstands⟩ := hparted.update hsub hsize
    dsimp only [bind, Except.bind]
    rw [hmachine]
    dsimp only
    rw [hstart]
    refine ⟨hsoleControl, fun m hm => ⟨(hstands m hm).1, ?_⟩⟩
    rw [Scored, (hstands m hm).2]
    exact hscored

theorem new_split (hsub : ∀ b ∈ controls, b ∈ net.bases)
    (hnets : List.Forall₂ (PartOf net controls) controls nets)
    (hwidth : net.initialState.length = net.bases.length) (strategy : Strategy) :
    (CombinedMachine.new nets none strategy).map (fun _ => ()) =
        net.soleControl controls (.ofBools net.initialState) ∧
      ∀ m, CombinedMachine.new nets none strategy = .ok m →
        Showing net controls (net.bitsOf (.ofBools net.initialState)) m := by
  have hgoals : ∀ g ∈ (none : Option Network), g.Primed := nofun
  obtain ⟨hsoleControl, hnew⟩ := new_parts hsub (hnets.imp fun _ _ hof => ⟨hof, hof.seat⟩) hgoals hwidth
    strategy
  refine ⟨hsoleControl, fun m hm => ?_⟩
  obtain ⟨hstands, hscored⟩ := hnew m hm
  refine hstands.showing hsub ?_ (by rw [bitsOf_ofBools hwidth])
  rw [Scored] at hscored
  cases hgoals : m.goals with
  | none => rfl
  | some machine =>
    rw [hgoals] at hscored
    cases hscored

end New

end CombinedMachine

/-! ## A split and the whole -/

def Request.Stays : Request → Prop
  | .call (.update _) | .call .reset => False
  | _ => True

theorem Request.Stays.told_eq {r : Request} (h : r.Stays) (net : Network) (bits : List Bool) :
    (r.told net bits).2 = bits := by
  cases r with
  | call c =>
    cases c with
    | update s => exact h.elim
    | reset => exact h.elim
    | next legals =>
      rw [Request.told, Call.told]
      cases legals.find? fun l => !net.offers bits l <;> rfl
  | legalMoves | isTerminal | goalValue | currentState => rfl

open Network in
theorem Network.PartOf.allTold {net part : Network} {controls : List CompId} {b : CompId}
    {bits : List Bool} (h : PartOf net controls b part) (hfin : net.Finished)
    (hsole : Sole b controls (net.position bits []).on) {rs : List Request}
    (hrs : ∀ r ∈ rs, r.Stays ∧ r.Names net) : Request.allTold part bits rs = Request.allTold net bits rs := by
  induction rs with
  | nil => rfl
  | cons r rs ih =>
    obtain ⟨hstays, hn⟩ := hrs r mem_cons_self
    rw [Request.allTold, Request.allTold, h.told hfin hsole hn, hstays.told_eq net bits,
      ih (forall_mem_cons.mp hrs).2]

namespace Listing

open Network

/-- A split plays like the whole. Each part does so in the states for which it was made. The machine over
all parts does so in play, as long as it goes to states for which there is a part, and refuses the others. -/
theorem replies_split (l : Listing) (hb : l.Balanced) (ha : l.Acyclic) (opts vopts : Options)
    {net : Network} {cb : ControlBases} {nets : List Network} (h : (l.compile opts).listen.1 = .ok net)
    (hsub : ∀ b ∈ cb.bases, b ∈ net.bases) (hnodup : cb.bases.Nodup) (hstrip : cb.stripGoals = false)
    (hs : (net.split cb vopts).listen.1 = .ok nets) (strategy : Strategy) :
    (∀ (k : Nat) b, cb.bases[k]? = some b → ∃ part, nets[k]? = some part ∧
      ∀ s : BaseState, s.size = net.bases.length → net.controlsOn cb.bases s = [b] →
      ∀ rs : List Request, (∀ r ∈ rs, r.Stays ∧ r.Distinct ∧ r.Names net) →
      ∃ whole single, SingleMachine.new net strategy = .ok whole ∧
        SingleMachine.new part strategy = .ok single ∧
        (Machine.single single).replies (.call (.update s) :: rs) =
          (Machine.single whole).replies (.call (.update s) :: rs)) ∧
    (CombinedMachine.new nets none strategy).map (fun _ => ()) =
      net.soleControl cb.bases (.ofBools net.initialState) ∧
    ∀ m, CombinedMachine.new nets none strategy = .ok m →
      ∃ whole, SingleMachine.new net strategy = .ok whole ∧
      ∀ rs : List Request,
        (∀ r ∈ rs, r.Distinct ∧ r.Names net ∧ CombinedMachine.Guided net cb.bases r) →
        (Machine.combined m).replies rs = (Machine.single whole).replies rs ∧
        ∀ s : BaseState, s.size = net.bases.length →
          ((rs.foldl Machine.asked (.combined m)).update s).map (fun _ => ()) = net.soleControl cb.bases s := by
  obtain ⟨cut, last, hc⟩ := compiled_of_ok hb ha h
  have hfin := hc.finished
  have hparts := hfin.split hc.unlit hstrip hsub hnodup vopts #[] nets (by rwa [← Observed.listen_eq])
  have hwhole := fun (rs : List Request) (hrs : ∀ r ∈ rs, r.Distinct) =>
    Request.replies_of_new hfin.primed hfin.formed.toCast hrs strategy
  obtain ⟨hsoleControl, hnew⟩ := CombinedMachine.new_split hsub hparts hc.width strategy
  refine ⟨fun k b hk => ?_, hsoleControl, fun m hm => ?_⟩
  · have hlt := (List.getElem?_eq_some_iff.mp hk).1
    have hpart := List.getElem?_eq_getElem (hparts.length_eq ▸ hlt : k < nets.length)
    have hof := forall₂_getElem? hparts hk hpart
    refine ⟨_, hpart, fun s hsize hon rs hrs => ?_⟩
    have hdist : ∀ r ∈ Request.call (.update s) :: rs, r.Distinct := by
      intro r hr
      rcases List.mem_cons.mp hr with rfl | hr
      · trivial
      · exact (hrs r hr).2.1
    obtain ⟨whole, hnewWhole, hrepliesWhole⟩ := hwhole _ hdist
    obtain ⟨single, hnewPart, hrepliesPart⟩ := Request.replies_of_new hof.plays.finished.primed
      hof.plays.finished.formed.toCast hdist strategy
    refine ⟨whole, single, hnewWhole, hnewPart, ?_⟩
    have hgoing : ∀ net' bits, net'.bases = net.bases →
        Call.going net' bits s = (.ok none, net.bitsOf s) := fun net' bits hbases => by
      rw [Call.going, hbases, if_pos hsize, bitsOf, bitsOf, hbases]
    rw [hrepliesWhole, hrepliesPart, Request.allTold, Request.allTold, Request.told, Request.told,
      Call.told, Call.told, hgoing _ _ rfl, hgoing _ _ hof.plays.bases]
    exact congrArg _ (hof.allTold hfin (sole_of_controlsOn hsub hon) fun r hr =>
      ⟨(hrs r hr).1, (hrs r hr).2.2⟩)
  · obtain ⟨whole, hnewWhole, -⟩ := hwhole [] fun r hr => (List.not_mem_nil hr).elim
    refine ⟨whole, hnewWhole, fun rs hrs => ?_⟩
    obtain ⟨whole', hnewWhole', hreplies⟩ := hwhole rs fun r hr => (hrs r hr).1
    obtain rfl : whole = whole' := Except.ok.inj (hnewWhole.symm.trans hnewWhole')
    obtain ⟨hcombined, bits', m', hlast, hshow⟩ :=
      CombinedMachine.Showing.replies_eq hfin hsub rs (hnew m hm) hrs
    refine ⟨hcombined.trans hreplies.symm, fun s hsize => ?_⟩
    rw [hlast, ← (hshow.toParted.update hsub hsize).1]
    dsimp only [Machine.update]
    cases m'.update s <;> rfl

theorem replies_split_relay : ∃ net nets m whole,
    (relay.compile {}).listen.1 = .ok net ∧
    (net.split { bases := [0, 1], stripGoals := false } {}).listen.1 = .ok nets ∧
    CombinedMachine.new nets none .depthFirst = .ok m ∧ SingleMachine.new net .depthFirst = .ok whole ∧
    (Machine.combined m).replies
        [.call (.next [9]), .call (.update (.ofBools [true, false])), .goalValue 0] =
      (Machine.single whole).replies
        [.call (.next [9]), .call (.update (.ofBools [true, false])), .goalValue 0] := by
  have hok : (do
      let net ← (relay.compile {}).listen.1
      let nets ← (net.split { bases := [0, 1], stripGoals := false } {}).listen.1
      let _ ← CombinedMachine.new nets none .depthFirst
      let _ ← net.soleControl [0, 1] (.ofBools [true, false])
      return (net.bases, net.legals) : Checked (List CompId × List CompId)) = .ok ([0, 1], [9]) := by
    decide +kernel
  obtain ⟨net, hnet, hok⟩ := exists_of_bind_eq_ok hok
  obtain ⟨nets, hnets, hok⟩ := exists_of_bind_eq_ok hok
  obtain ⟨m, hm, hok⟩ := exists_of_bind_eq_ok hok
  obtain ⟨u, hsole, hok⟩ := exists_of_bind_eq_ok hok
  obtain ⟨hbases, hlegals⟩ : net.bases = [0, 1] ∧ net.legals = [9] := Prod.mk.inj (Except.ok.inj hok)
  obtain ⟨-, -, hplay⟩ := replies_split relay relay_balanced relay_acyclic {} {} hnet
    (by rw [hbases]; exact fun b hb => hb) (by decide) rfl hnets .depthFirst
  obtain ⟨whole, hwhole, h⟩ := hplay m hm
  refine ⟨net, nets, m, whole, hnet, hnets, hm, hwhole, (h _ fun r hr => ?_).1⟩
  refine ⟨(by decide : ∀ r ∈ [Request.call (.next [9]), .call (.update (.ofBools [true, false])),
    .goalValue 0], r.Distinct) r hr, ?_⟩
  simp only [List.mem_cons, List.not_mem_nil, or_false] at hr
  rcases hr with rfl | rfl | rfl
  · refine ⟨fun l hl => ?_, trivial⟩
    rwa [hlegals]
  · exact ⟨trivial, fun _ => ⟨⟨_, rfl⟩, hsole⟩⟩
  · exact ⟨trivial, trivial⟩

end Listing

end GameNet
