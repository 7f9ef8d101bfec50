import GameNet.Machine.Basic
import GameNet.Proofs.Eval.Levels
import GameNet.Proofs.Eval.Position
import GameNet.Proofs.Eval.Recount

/-!
Machines over one network: however a machine got where it is, its network is the evaluated one.

A position is described by the bits of the bases alone.
-/

namespace GameNet

open List

/-! ## Setting values -/

namespace SingleMachine

open Network

structure Sets (m : SingleMachine) (values : List (CompId × Bool)) (m' : SingleMachine) : Prop where
  strategy : m'.strategy = m.strategy
  idle : m'.levels.Idle
  recounts : Recounts m.net m'.net
  tallied : m'.net.Tallied
  count : ∀ d, m.net.contains d = true → m.net.inputsOf d = [] →
    m'.net.countAt d = aimed values m.net.countAt d

section Set

variable {m m' : SingleMachine} {values : List (CompId × Bool)}

theorem Sets.refl (hidle : m.levels.Idle) (h : m.net.Tallied) : Sets m [] m :=
  ⟨rfl, hidle, .refl _, h, fun _ _ _ => rfl⟩

theorem Sets.cons {m₁ : SingleMachine} {x : CompId × Bool} (h : Sets m [x] m₁)
    (h' : Sets m₁ values m') : Sets m (x :: values) m' := by
  refine ⟨h'.strategy.trans h.strategy, h'.idle, h.recounts.trans h'.recounts, h'.tallied,
    fun d hd hi => ?_⟩
  rw [h'.count d ((h.recounts.contains d).trans hd) ((h.recounts.inputsOf d).trans hi), aimed_cons]
  exact aimed_congr (h.count d hd hi)

theorem Sets.settable {x : CompId × Bool} {c : CompId} (h : Sets m [x] m')
    (hc : m.net.Settable c) : m'.net.Settable c := by
  obtain ⟨k, hk, hi, hg, h01⟩ := hc
  obtain ⟨n, hn⟩ := h.recounts.get? hk
  have hcount := h.count c (contains_of_get? hk) (by rw [inputsOf_of_get? hk, hi])
  rw [countAt_of_get? hn, aimed_cons] at hcount
  change n = if c = x.1 then countOf x.2 else m.net.countAt c at hcount
  refine ⟨_, hn, hi, hg, ?_⟩
  change n = 0 ∨ n = 1
  rw [hcount]
  split
  · exact countOf_cases x.2
  · rw [countAt_of_get? hk]
    exact h01

section

variable (hb : m.net.Balanced) (ha : m.net.Acyclic) (hs : m.net.Standard) (h : m.net.Tallied)
  (hidle : m.levels.Idle)
include hb ha hs h hidle

theorem setDepthFirst_yields {c : CompId} {value : Bool}
    (hc : m.net.Settable c) : (m.setDepthFirst c value).Yields (Sets m [(c, value)]) := by
  obtain ⟨net, strategy, levels, log⟩ := m
  obtain ⟨⟨net', traffic⟩, hp, hr, hset, hcount⟩ : (net.propagate c value).Yields _ :=
    propagate_yields hb ha hs h hc
  have hsets : ∀ log', Sets ⟨net, strategy, levels, log⟩ [(c, value)] ⟨net', strategy, levels, log'⟩ :=
    fun _ => ⟨rfl, hidle, hr, hset, fun d _ hi => hcount d hi⟩
  unfold setDepthFirst
  cases log with
  | none => exact .bind_ok hp (.pure (hsets none))
  | some log =>
    refine .bind (P := fun r => r.1 = net') ?_ fun r hr => ?_
    · unfold propagateLogged
      refine .bind_ok hp ?_
      cases traffic <;> exact .pure rfl
    · obtain ⟨net'', log'⟩ := r
      cases hr
      exact .pure (hsets (some log'))

/-- Setting components without inputs; level by level no component may be set twice. -/
theorem setMany_yields (hv : ∀ x ∈ values, m.net.Settable x.1)
    (hd : m.strategy = .byLevel → (values.map (·.1)).Nodup) : (m.setMany values).Yields (Sets m values) := by
  unfold setMany
  cases hst : m.strategy with
  | depthFirst =>
    clear hst hd
    induction values generalizing m with
    | nil => exact .pure (.refl hidle h)
    | cons x values ih =>
      dsimp only
      rw [foldlM_cons]
      refine .bind (setDepthFirst_yields hb ha hs h hidle (hv x mem_cons_self)) fun m₁ h₁ => ?_
      have hr := h₁.recounts
      exact (ih (hr.balanced hb) (hr.acyclic ha) (hr.standard hs) h₁.tallied h₁.idle
        fun y hy => h₁.settable (hv y (mem_cons_of_mem _ hy))).mono fun _ h' => h₁.cons h'
  | byLevel =>
    obtain ⟨net, strategy, levels, log⟩ := m
    obtain ⟨lv, hlv, hrun⟩ := Checked.bind_yields (Levels.set_run_yields hb ha hs h hidle hv (hd hst))
    refine .bind_ok hlv (.bind hrun fun r hr => .pure ?_)
    obtain ⟨hrec, hset, hidle', hcount⟩ := hr
    exact ⟨rfl, hidle', hrec, hset, fun d hl hi => hcount d hi hl⟩

end

end Set

end SingleMachine

/-! ## Positions of a machine -/

namespace Network

def bitsOf (net : Network) (s : BaseState) : List Bool := (List.range net.bases.length).map s.get

def offers (net : Network) (bits : List Bool) (l : CompId) : Bool :=
  net.contains l && net.eval (net.reading bits []) l && (net.pairedInput? l).isSome

def chosen (net : Network) (legals : List CompId) : List CompId := legals.filterMap net.pairedInput?

def unknownMove (net : Network) (l : CompId) : Fault :=
  .play (.unknownMove ((((net.get? l).bind (·.proposition?)).bind (·.player)).getD 0)
    ((net.moveText? l).getD l.render))

def follow (net : Network) (bits : List Bool) (on : List CompId) : BaseState :=
  .ofBools (net.transitions.map (net.eval (net.reading bits on)))

end Network

namespace SingleMachine

open Network

structure Showing (net : Network) (bits : List Bool) (on : List CompId) (m : SingleMachine) :
    Prop where
  same : m.net = net.evaluated bits on
  idle : m.levels.Idle

section Showing

variable {net : Network} {bits bits' : List Bool} {on on' : List CompId} {m m' : SingleMachine}

theorem settable_evaluated (hp : net.Primed) {c : CompId}
    (hc : c ∈ net.bases ∨ ∃ k, net.get? c = some k ∧ k.hasRole .input) :
    (net.evaluated bits on).Settable c := by
  rcases hc with hc | ⟨k, hk, hr⟩
  · obtain ⟨k, hk, hr, hi, -⟩ := hp.base c hc
    refine ⟨_, get?_evaluated bits on hk, hi, Component.isGate_of_hasRole hr, ?_⟩
    obtain ⟨i, hidx⟩ := Option.ne_none_iff_exists'.mp (mt idxOf?_eq_none_iff.mp (not_not_intro hc))
    rw [if_pos hi, sourceCount_of_base hidx]
    exact countOf_cases _
  obtain ⟨hi, h0⟩ := hp.input c k hk hr
  refine ⟨_, get?_evaluated bits on hk, hi, Component.isGate_of_hasRole hr, ?_⟩
  rw [if_pos hi, sourceCount_of_not_mem (hp.not_mem_bases hk hr), countAt_of_get? hk, h0]
  change (if on.contains c then 1 else 0) = (0 : Int) ∨ (if on.contains c then 1 else 0) = (1 : Int)
  split
  · exact .inr rfl
  · exact .inl rfl

theorem Showing.setMany {values : List (CompId × Bool)} (h : Showing net bits on m)
    (hp : net.Primed) (hon : net.Choosable on) (hon' : net.Choosable on')
    (hv : ∀ x ∈ values, x.1 ∈ net.bases ∨ ∃ k, net.get? x.1 = some k ∧ k.hasRole .input)
    (hd : m.strategy = .byLevel → (values.map (·.1)).Nodup)
    (haim : ∀ c, aimed values (net.sourceCount bits on) c = net.sourceCount bits' on' c) :
    (m.setMany values).Yields fun m' => Showing net bits' on' m' ∧ m'.strategy = m.strategy := by
  have hev := recounts_evaluated net bits on
  rw [← h.same] at hev
  refine (setMany_yields (hev.balanced hp.balanced) (hev.acyclic hp.acyclic)
    (hev.standard hp.standard) (h.same ▸ hp.tallied_evaluated hon) h.idle
    (fun x hx => h.same ▸ settable_evaluated hp (hv x hx)) hd).mono fun m' h' => ⟨⟨?_, h'.idle⟩, h'.strategy⟩
  refine hp.eq_evaluated hon' (hev.trans h'.recounts) h'.tallied fun c hc hi => ?_
  rw [h'.count c ((hev.contains c).trans hc) ((hev.inputsOf c).trans hi), ← haim c]
  obtain ⟨k, hk⟩ := contains_iff.mp hc
  rw [inputsOf_of_get? hk] at hi
  exact aimed_congr (by rw [h.same, countAt_evaluated hk hi])

theorem aimed_bases (hp : net.Primed) (s : BaseState) (c : CompId) :
    aimed (net.bases.zipIdx.map fun x => (x.1, s.get x.2)) (net.sourceCount bits on) c =
      net.sourceCount (net.bitsOf s) on c := by
  cases hidx : net.bases.idxOf? c with
  | none =>
    have hmem := idxOf?_eq_none_iff.mp hidx
    rw [aimed_of_not_mem, sourceCount_of_not_mem hmem, sourceCount_of_not_mem hmem]
    rw [map_map]
    change c ∉ net.bases.zipIdx.map Prod.fst
    rwa [zipIdx_map_fst]
  | some i =>
    obtain ⟨hlt, hget, -⟩ := idxOf?_eq_some_iff.mp hidx
    have hbit : (net.bitsOf s).getD i false = s.get i := by
      rw [bitsOf, getD_eq_getElem?_getD, getElem?_map, getElem?_range hlt]
      rfl
    rw [sourceCount_of_base hidx, hbit]
    refine aimed_of_mem (fun x hx hxc => ?_) ?_
    · obtain ⟨⟨b, j⟩, hy, rfl⟩ := mem_map.mp hx
      obtain ⟨hj, hb⟩ := mem_zipIdx' hy
      dsimp only at hxc ⊢
      rw [hp.bases_nodup.getElem_inj_iff.mp (show net.bases[j] = net.bases[i] by rw [← hb, hxc, hget])]
    · rw [map_map]
      change c ∈ net.bases.zipIdx.map Prod.fst
      rw [zipIdx_map_fst]
      exact mem_of_getElem hget

theorem Showing.setState (h : Showing net bits [] m) (hp : net.Primed) (s : BaseState) :
    (m.setState s).Yields fun m' => Showing net (net.bitsOf s) [] m' ∧ m'.strategy = m.strategy := by
  have hbases : m.net.bases = net.bases := by rw [h.same]; rfl
  unfold SingleMachine.setState
  rw [hbases]
  refine h.setMany hp net.choosable_nil net.choosable_nil (fun x hx => .inl ?_) (fun _ => ?_) (aimed_bases hp s)
  · obtain ⟨⟨b, j⟩, hy, rfl⟩ := mem_map.mp hx
    exact fst_mem_of_mem_zipIdx hy
  rw [map_map]
  change (net.bases.zipIdx.map Prod.fst).Nodup
  rw [zipIdx_map_fst]
  exact hp.bases_nodup

theorem showing_self (hp : net.Primed) {m : SingleMachine} (hm : m.net = net) (hidle : m.levels.Idle) :
    Showing net (net.bases.map fun b => decide (0 < net.countAt b)) [] m := by
  refine ⟨?_, hidle⟩
  rw [hm]
  refine hp.eq_evaluated net.choosable_nil (.refl net) hp.tallied fun c hc hi => ?_
  cases hidx : net.bases.idxOf? c with
  | none =>
    rw [sourceCount_of_not_mem (idxOf?_eq_none_iff.mp hidx)]
    rfl
  | some i =>
    obtain ⟨hlt, hget, -⟩ := idxOf?_eq_some_iff.mp hidx
    obtain ⟨k, hk, -, -, h01⟩ := hp.base c (mem_of_getElem hget)
    rw [sourceCount_of_base hidx, getD_eq_getElem?_getD, getElem?_map, getElem?_eq_getElem hlt, hget]
    change net.countAt c = countOf (decide (0 < net.countAt c))
    rw [countAt_of_get? hk]
    rcases h01 with h0 | h1
    · rw [h0]; rfl
    · rw [h1]; rfl

theorem idle_new (net : Network) : (Levels.new net).Idle := by
  intro q hq
  exact (Array.mem_replicate.mp hq).2

theorem new_yields (hp : net.Primed) (strategy : Strategy) : (SingleMachine.new net strategy).Yields fun m =>
      Showing net (net.bitsOf (.ofBools net.initialState)) [] m ∧ m.strategy = strategy :=
  (showing_self hp (m := ⟨net, strategy, .new net, none⟩) rfl (idle_new net)).setState hp _

/-! ## Readings -/

theorem Showing.valueAt (h : Showing net bits on m) (hp : net.Primed) (hon : net.Choosable on)
    {c : CompId} (hc : net.contains c) : m.net.valueAt c = net.eval (net.reading bits on) c := by
  rw [h.same, hp.valueAt_evaluated hon hc]

theorem Showing.readState (h : Showing net bits on m) {cs : List CompId}
    (hcs : ∀ c ∈ cs, net.contains c) (test : Component → Bool) (f : CompId → Bool)
    (hf : ∀ c ∈ cs, ∀ k, m.net.get? c = some k → test k = f c) :
    m.readState cs test = .ok (.ofBools (cs.map f)) := by
  unfold SingleMachine.readState
  rw [Checked.mapM_yields (g := f) cs fun c hc => ?_]
  · rfl
  obtain ⟨k, hk⟩ := contains_iff.mp (hcs c hc)
  have hev := get?_evaluated bits on hk
  rw [← h.same] at hev
  rw [get_of_get? hev]
  exact congrArg Except.ok (hf c hc _ hev)

theorem Showing.currentState (h : Showing net bits on m) (hp : net.Primed)
    (hlen : bits.length = net.bases.length) : m.currentState = .ok (.ofBools bits) := by
  have hbases : m.net.bases = net.bases := by rw [h.same]; rfl
  have hlive : ∀ b ∈ net.bases, net.contains b := by
    intro b hb
    obtain ⟨k, hk, -⟩ := hp.base b hb
    exact contains_of_get? hk
  unfold SingleMachine.currentState
  rw [hbases, h.readState hlive _ (fun b => decide (0 < m.net.countAt b))
    fun b _ k hk => by rw [countAt_of_get? hk]]
  congr 2
  refine ext_getElem (by rw [length_map, hlen]) fun i hi hi' => ?_
  rw [length_map] at hi
  obtain ⟨k, hk, -, hnil, -⟩ := hp.base net.bases[i] (getElem_mem hi)
  have hcount : m.net.countAt net.bases[i] = countOf bits[i] := by
    rw [h.same, countAt_evaluated hk hnil, sourceCount_of_base (hp.idxOf?_getElem hi),
      getD_eq_getElem?_getD, getElem?_eq_getElem hi', Option.getD_some]
  rw [getElem_map, hcount]
  cases bits[i] <;> rfl

/-! ## Moves -/

theorem Showing.unknownMove (h : Showing net bits on m) (l : CompId) :
    m.unknownMove l = net.unknownMove l := by
  have hprop : (m.net.get? l).bind (·.proposition?) = (net.get? l).bind (·.proposition?) := by
    rw [h.same]
    cases hk : net.get? l with
    | none => rw [(recounts_evaluated net bits on).get?_none hk]
    | some k => rw [get?_evaluated bits on hk]; rfl
  simp only [SingleMachine.unknownMove, Network.unknownMove, SingleMachine.moveText, moveText?, hprop]

theorem Showing.inputOf (h : Showing net bits [] m) (hp : net.Primed) (l : CompId) :
    m.inputOf l = if net.offers bits l = true then .ok ((net.pairedInput? l).getD 0)
      else .error (net.unknownMove l) := by
  unfold SingleMachine.inputOf
  rw [h.unknownMove]
  cases hk : net.get? l with
  | none =>
    have hnone := (recounts_evaluated net bits []).get?_none hk
    rw [← h.same] at hnone
    have hoff : net.offers bits l = false := by rw [offers, Network.contains, hk]; rfl
    rw [hnone, hoff]
    rfl
  | some k =>
    obtain ⟨n, hev⟩ := (recounts_evaluated net bits []).get? hk
    rw [← h.same] at hev
    have hval := h.valueAt hp net.choosable_nil (contains_of_get? hk)
    rw [valueAt_of_get? hev] at hval
    rw [hev, offers, contains_of_get? hk, Bool.true_and, ← hval, pairedInput?_of_get? hk]
    have hkind : (k.counting n).proposition? = k.proposition? := rfl
    cases hv : (k.counting n).value with
    | false =>
      rw [Option.filter_some, hv]
      rfl
    | true =>
      rw [Option.filter_some, hv, if_pos rfl]
      dsimp only
      rw [hkind]
      cases k.proposition?.bind (·.pairedInput) <;> rfl

theorem choosable_chosen (hp : net.Primed) (legals : List CompId) : net.Choosable (net.chosen legals) := by
  intro i hi
  obtain ⟨l, -, hl⟩ := mem_filterMap.mp hi
  exact hp.paired l i hl

theorem map_pairedInput {legals : List CompId} (h : (legals.find? fun l => !net.offers bits l) = none) :
    legals.map (fun l => (net.pairedInput? l).getD 0) = net.chosen legals := by
  rw [find?_eq_none] at h
  induction legals with
  | nil => rfl
  | cons l legals ih =>
    have hl := h l mem_cons_self
    rw [Bool.not_eq_true, Bool.not_eq_false', offers, Bool.and_eq_true] at hl
    obtain ⟨i, hi⟩ := Option.isSome_iff_exists.mp hl.2
    rw [chosen, filterMap_cons_some hi, map_cons, hi, ih (forall_mem_cons.mp h).2]
    rfl

theorem aimed_inputs (hp : net.Primed) {on : List CompId} (hon : net.Choosable on) (value : Bool)
    (c : CompId) : aimed (on.map (·, value)) (net.sourceCount bits (if value then [] else on)) c =
      net.sourceCount bits (if value then on else []) c := by
  have hfst : (on.map (·, value)).map (·.1) = on := by
    rw [map_map]
    exact map_id' on
  by_cases hc : c ∈ on
  · obtain ⟨k, hk, hr⟩ := hon c hc
    have hcon : on.contains c = true := contains_iff_mem.mpr hc
    have hvalue : ∀ x ∈ on.map (·, value), x.1 = c → x.2 = value := by
      intro x hx _
      obtain ⟨i, -, rfl⟩ := mem_map.mp hx
      rfl
    rw [aimed_of_mem hvalue (by rwa [hfst]), sourceCount_of_not_mem (hp.not_mem_bases hk hr)]
    cases value with
    | true => rw [if_pos rfl, if_pos hcon]; rfl
    | false => rw [countAt_of_get? hk, (hp.input c k hk hr).2]; rfl
  · have hcon : on.contains c = false := by
      rw [Bool.eq_false_iff]
      exact fun h => hc (contains_iff_mem.mp h)
    rw [aimed_of_not_mem (by rwa [hfst])]
    cases value <;> simp only [sourceCount, hcon, if_true, Bool.false_eq_true, if_false, contains_nil]

/-- Playing: a legal that is not offered is refused, and else the transitions are read with the inputs
chosen. The machine stays where it is. -/
theorem Showing.nextState (h : Showing net bits [] m) (hp : net.Primed) {legals : List CompId}
    (hd : m.strategy = .byLevel → (net.chosen legals).Nodup) : (legals.find? fun l => !net.offers bits l).elim
      ((m.nextState legals).Yields fun r => r.1 = net.follow bits (net.chosen legals) ∧
        Showing net bits [] r.2 ∧ r.2.strategy = m.strategy)
      fun l => m.nextState legals = .error (net.unknownMove l) := by
  have hinputs := Checked.mapM_eq_find legals fun l _ => h.inputOf hp l
  unfold SingleMachine.nextState
  cases hfind : legals.find? fun l => !net.offers bits l with
  | some l =>
    rw [hinputs, hfind]
    rfl
  | none =>
    rw [hfind, Option.elim_none, map_pairedInput hfind] at hinputs
    rw [Option.elim_none]
    have hon := choosable_chosen hp legals
    have hset : ∀ value : Bool, ∀ x ∈ (net.chosen legals).map (·, value), x.1 ∈ net.bases ∨
        ∃ k, net.get? x.1 = some k ∧ k.hasRole .input := by
      intro value x hx
      obtain ⟨i, hi, rfl⟩ := mem_map.mp hx
      exact .inr (hon i hi)
    have hfst : ∀ value : Bool, ((net.chosen legals).map (·, value)).map (·.1) = net.chosen legals := by
      intro value
      rw [map_map]
      exact map_id' _
    refine .bind_ok hinputs (.bind (h.setMany hp net.choosable_nil hon (hset true)
      (fun hs => by rw [hfst]; exact hd hs) (aimed_inputs hp hon true)) fun m₁ h₁ => ?_)
    have htrans : m₁.net.transitions = net.transitions := by rw [h₁.1.same]; rfl
    have hread : m₁.readState m₁.net.transitions Component.value =
        .ok (net.follow bits (net.chosen legals)) := by
      rw [htrans, h₁.1.readState hp.transition _ (net.eval (net.reading bits (net.chosen legals)))]
      · rfl
      · intro t ht k hk
        rw [← valueAt_of_get? hk, h₁.1.valueAt hp hon (hp.transition t ht)]
    refine .bind_ok hread (.bind (h₁.1.setMany hp hon net.choosable_nil (hset false)
      (fun hs => by rw [hfst]; exact hd (h₁.2 ▸ hs)) (aimed_inputs hp hon false)) fun m₂ h₂ => .pure ?_)
    exact ⟨rfl, h₂.1, h₂.2.trans h₁.2⟩

end Showing

end SingleMachine

end GameNet
