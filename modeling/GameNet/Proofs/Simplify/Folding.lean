import GameNet.Simplify.Constants
import GameNet.Proofs.Eval.Forward
import GameNet.Proofs.Eval.Recount

/-!
Folding components that are stuck keeps what the network computes.

A set `S` of valuations says what is known: that some components are stuck.
-/

namespace GameNet

open List Option

/-! ## Fronts -/

namespace Component

def front (k : Component) : Component := { k with outputs := [] }

def without (k : Component) (c : CompId) : Component := { k with inputs := k.inputs.erase c }

def lessTrue (k : Component) : Component := { k with
  count := k.wrap (k.count - 1)
  reqTrue := k.wrap (k.reqTrue - 1)
  reqFalse := k.wrap (k.reqFalse - 1) }

def Counted (k : Component) (val : CompId → Bool) : Prop :=
  k.Standard ∧ (k.isGate = true ∨ k.inputs ≠ [] → k.count = (k.inputs.countP val : Nat))

end Component

namespace Network

def front? (net : Network) (c : CompId) : Option Component := (net.get? c).map Component.front

def putFront (front : CompId → Option Component) (o : CompId) (k : Component) (d : CompId) :
    Option Component := if d = o then some k else front d

section Fronts

variable {net : Network} {c : CompId} {k : Component} {o d : CompId}

theorem front?_of_get? (hk : net.get? c = some k) : net.front? c = some k.front := by
  rw [front?, hk]
  rfl

theorem exists_of_front? (h : net.front? c = some k) : ∃ k', net.get? c = some k' ∧ k'.front = k :=
  map_eq_some_iff.mp h

theorem inputsOf_of_front? (h : net.front? c = some k) : net.inputsOf c = k.inputs := by
  obtain ⟨k', hk', rfl⟩ := exists_of_front? h
  rw [inputsOf_of_get? hk']
  rfl

theorem Recounts.front? {net net' : Network} (h : Recounts net net') {d : CompId} {k' : Component}
    (hk' : net'.front? d = some k') : ∃ n, net.front? d = some (k'.counting n) := by
  obtain ⟨k, hk, rfl⟩ := exists_of_front? hk'
  obtain ⟨n, hn⟩ := h.symm.get? hk
  exact ⟨n, front?_of_get? hn⟩

theorem putFront_self (front : CompId → Option Component) (o : CompId) (k : Component) :
    putFront front o k o = some k := if_pos rfl

theorem putFront_of_ne (front : CompId → Option Component) (k : Component)
    (h : d ≠ o) : putFront front o k d = front d := if_neg h

theorem putFront_none {front : CompId → Option Component} {k : Component}
    (k' : Component) (hk : front o = some k) (hd : front d = none) : putFront front o k' d = none := by
  rw [putFront_of_ne front k', hd]
  rintro rfl
  rw [hk] at hd
  cases hd

theorem putFront_cases {front : CompId → Option Component} {k k' : Component}
    (h : putFront front o k d = some k') : d = o ∧ k' = k ∨ d ≠ o ∧ front d = some k' := by
  by_cases hd : d = o
  · rw [hd, putFront_self] at h
    exact .inl ⟨hd, (Option.some.inj h).symm⟩
  · rw [putFront_of_ne _ _ hd] at h
    exact .inr ⟨hd, h⟩

theorem forall_putFront {front : CompId → Option Component} {k : Component} {P : CompId → Component → Prop}
    (h : ∀ d kd, front d = some kd → P d kd) (hk : P o k) :
    ∀ d kd, putFront front o k d = some kd → P d kd := by
  intro d kd hd
  rcases putFront_cases hd with ⟨rfl, rfl⟩ | ⟨-, hd⟩
  · exact hk
  · exact h d kd hd

theorem putFront_putFront (front : CompId → Option Component) (o : CompId) (k k' : Component) :
    putFront (putFront front o k) o k' = putFront front o k' := by
  funext d
  unfold putFront
  split <;> rfl

theorem front?_modify_outputs (net : Network) (c : CompId) {f : Component → Component}
    (hf : ∀ k, (f k).front = k.front := by intro k; rfl) : (net.modify c f).front? = net.front? :=
  funext fun d => map_get?_modify net c d _ hf

theorem front?_modify (net : Network) (c : CompId) {f : Component → Component} {e : Component}
    (hk : net.get? c = some k) (hf : (f k).front = e) :
    (net.modify c f).front? = putFront net.front? c e := by
  funext d
  rw [front?, putFront, get?_modify]
  split
  · next hd => rw [hd, hk, map_some, map_some, hf]
  · rfl

theorem front?_dropInputs {net : Network} {o : CompId} {k : Component} (hk : net.get? o = some k) :
    (Constants.dropInputs net o).front? = putFront net.front? o { k.front with inputs := [] } := by
  have hfold : ∀ (is : List CompId) (net : Network), (is.foldl (fun net i =>
      net.modify i fun k => { k with outputs := k.outputs.erase o }) net).front? = net.front? := by
    intro is
    induction is with
    | nil => exact fun _ => rfl
    | cons i is ih => exact fun net => (ih _).trans (front?_modify_outputs net i)
  rw [Constants.dropInputs, hfold]
  exact front?_modify net o hk rfl

end Fronts

/-! ## Wiring -/

theorem Wired.dropInputs {net : Network} {ins outs : CompId → CompId → Nat} (h : Wired net ins outs)
    {o : CompId} {k : Component} (hk : net.get? o = some k) :
    Wired (Constants.dropInputs net o) (fun a b => if b = o then 0 else ins a b)
      fun a b => outs a b - if b = o then ins a o else 0 := by
  have h1 : Wired (net.modify o fun k => { k with inputs := [] })
      (fun a b => if b = o then 0 else ins a b) outs := by
    refine h.modify_inputs (contains_of_get? hk) (fun _ => []) (fun a => ?_) fun a b hb => ?_
    · rw [if_pos rfl]; rfl
    · rw [if_neg hb]
  rw [Constants.dropInputs, hk]
  refine (h1.eraseOutputs (fun _ => True) o k.inputs).2.congr (fun _ _ => rfl) fun a b => ?_
  rw [← h.ins a o, edgesIn, inputsOf_of_get? hk]

theorem rewires_dropInputs (touched : CompId → Prop) (net : Network) (o : CompId) :
    Rewires touched net (Constants.dropInputs net o) := by
  have h1 := rewires_modify (f := fun k => { k with inputs := [] }) touched net o
  exact h1.trans ((wired_self _).eraseOutputs touched o _).1

/-- The edges out of `c` are no longer listed there; at the other end there may be those to `rest`. -/
structure Loose (c : CompId) (rest : List CompId) (net : Network) : Prop where
  out : ∀ b, net.edgesOut c b = 0
  into : ∀ b, net.edgesIn c b ≤ rest.count b
  other : ∀ a b, a ≠ c → net.edgesOut a b = net.edgesIn a b

theorem Loose.balanced {c : CompId} {net : Network} (h : Loose c [] net) : net.Balanced := by
  intro a b
  by_cases ha : a = c
  · have := h.into b
    rw [count_nil] at this
    rw [ha, h.out]
    omega
  · exact h.other a b ha

section Loose

variable {c o : CompId} {rest : List CompId} {net : Network} {k : Component}

theorem Loose.skip (h : Loose c (o :: rest) net) (h0 : net.edgesIn c o = 0) : Loose c rest net := by
  refine ⟨h.out, fun b => ?_, h.other⟩
  by_cases hb : b = o
  · rw [hb, h0]
    exact Nat.zero_le _
  · have := h.into b
    rwa [count_cons_of_ne (Ne.symm hb)] at this

theorem Loose.eraseInput (h : Loose c (o :: rest) net) (ho : net.contains o) :
    Loose c rest (net.modify o (·.without c)) ∧
      ∀ a b, (net.modify o (·.without c)).edgesOut a b ≤ net.edgesOut a b := by
  have hw := (wired_self net).eraseInput ho c
  refine ⟨⟨fun b => ?_, fun b => ?_, fun a b ha => ?_⟩, fun a b => (hw.outs a b).le⟩
  · exact (hw.outs c b).trans (h.out b)
  · have := h.into b
    refine (hw.ins c b).le.trans ?_
    grind [arrow]
  · refine (hw.outs a b).trans ((h.other a b ha).trans (Eq.trans ?_ (hw.ins a b).symm))
    simp [arrow, ha]

theorem Loose.dropInputs (h : Loose c rest net) (hk : net.get? o = some k) :
    Loose c rest (Constants.dropInputs net o) ∧
      ∀ a b, (Constants.dropInputs net o).edgesOut a b ≤ net.edgesOut a b := by
  have hw := (wired_self net).dropInputs hk
  refine ⟨⟨fun b => ?_, fun b => ?_, fun a b ha => ?_⟩, fun a b => ?_⟩
  · rw [hw.outs, h.out, Nat.zero_sub]
  · have := h.into b
    rw [hw.ins]
    grind
  · have := h.other a b ha
    rw [hw.outs, hw.ins]
    grind
  · rw [hw.outs]
    exact Nat.sub_le _ _

theorem Loose.modify_of_eq (h : Loose c rest net) {f : Component → Component}
    (hi : ∀ k, (f k).inputs = k.inputs) (ho : ∀ k, (f k).outputs = k.outputs) :
    Loose c rest (net.modify o f) ∧ ∀ a b, (net.modify o f).edgesOut a b = net.edgesOut a b := by
  have hw := (wired_self net).modify_of_eq o hi ho
  refine ⟨⟨fun b => ?_, fun b => ?_, fun a b ha => ?_⟩, hw.outs⟩
  · rw [hw.outs, h.out]
  · rw [hw.ins]
    exact h.into b
  · rw [hw.outs, hw.ins, h.other a b ha]

end Loose

end Network

/-! ## What folding keeps -/

namespace Constants

open Network

/-- What holds of the fronts of all components while those in `work` are still to be folded. The counts
are right if they were `right` at the start, with the values `val`. -/
structure Core (right : Prop) (net₀ start : Network) (S : (CompId → Bool) → Prop)
    (val : CompId → Bool) (front : CompId → Option Component) (work : List (CompId × Bool)) :
    Prop where
  old : ∀ d k, front d = some k →
    ∃ k₀, net₀.get? d = some k₀ ∧ k.kind = k₀.kind ∧ k.inputs.Sublist k₀.inputs
  kept : ∀ d k₀, net₀.get? d = some k₀ → k₀.op = .proposition ∨ k₀.op = .transition →
    ∃ k, front d = some k
  since : ∀ d k, front d = some k → ∃ k₁, start.get? d = some k₁ ∧ k.inputs.Sublist k₁.inputs ∧
    k.face = k₁.face ∧ (k₁.inputs = [] → k.bare = k₁.bare)
  spent : ∀ d k, front d = some k → k.isGate = true → k.inputs = [] →
    d ∈ work.map (·.1) ∨ net₀.inputsOf d = []
  stuck : ∀ x ∈ work, ∃ k, front x.1 = some k ∧ k.inputs = [] ∧ ∀ v, S v → v x.1 = x.2
  distinct : (work.map (·.1)).Nodup
  obeys : ∀ v, S v → ∀ d k, front d = some k → k.inputs ≠ [] → v d = k.op.read k.inputs v
  lost : ∀ d k, front d = some k → k.inputs = [] → net₀.inputsOf d ≠ [] → ∃ u, ∀ v, S v → v d = u
  value : right → ∀ d k, front d = some k → k.value = val d
  counted : right → ∀ d k, front d = some k →
    k.isGate = true ∧ d ∈ work.map (·.1) ∨ k.Counted val

section Core

variable {right : Prop} {net₀ start : Network} {S : (CompId → Bool) → Prop} {val : CompId → Bool}
  {front : CompId → Option Component} {work : List (CompId × Bool)} {o : CompId} {k k' : Component}
  {work' : List (CompId × Bool)}

theorem Core.not_mem (h : Core right net₀ start S val front work) (hk : front o = some k)
    (hi : k.inputs ≠ []) : o ∉ work.map (·.1) := by
  intro hm
  obtain ⟨x, hx, rfl⟩ := mem_map.mp hm
  obtain ⟨kx, hkx, hnil, -⟩ := h.stuck x hx
  rw [hk] at hkx
  cases hkx
  exact hi hnil

/-- A component has lost inputs. With some left it goes on, and with none it is stuck. A gate is then to be
folded, too. -/
structure Lessens (right : Prop) (S : (CompId → Bool) → Prop) (val : CompId → Bool) (o : CompId)
    (k k' : Component) (work work' : List (CompId × Bool)) : Prop where
  face : k'.face = k.face
  sublist : k'.inputs.Sublist k.inputs
  value : right → k'.value = k.value
  goes : k'.inputs ≠ [] → work' = work ∧ (right → k'.Counted val) ∧
    ∀ v, S v → k.op.read k.inputs v = k.op.read k'.inputs v
  stuck : k'.inputs = [] → ∃ u, (∀ v, S v → v o = u) ∧
    (work' = (o, u) :: work ∨ k.isGate = false ∧ work' = work) ∧
    (right → k.isGate = false → k'.Counted val)

theorem Lessens.work_cases (h : Lessens right S val o k k' work work') :
    work' = work ∨ ∃ u, work' = (o, u) :: work ∧ k'.inputs = [] ∧ ∀ v, S v → v o = u := by
  by_cases hnil : k'.inputs = []
  · obtain ⟨u, hu, hwork | ⟨-, hwork⟩, -⟩ := h.stuck hnil
    · exact .inr ⟨u, hwork, hnil, hu⟩
    · exact .inl hwork
  · exact .inl (h.goes hnil).1

theorem Lessens.mem_work (h : Lessens right S val o k k' work work')
    (d : CompId) (hd : d ∈ work.map (·.1)) : d ∈ work'.map (·.1) := by
  rcases h.work_cases with rfl | ⟨u, rfl, -⟩
  · exact hd
  · exact mem_cons_of_mem _ hd

theorem Core.put (h : Core right net₀ start S val front work)
    (hk : front o = some k) (hi : k.inputs ≠ []) (hl : Lessens right S val o k k' work work') :
    Core right net₀ start S val (putFront front o k') work' := by
  have hkind := Component.kind_of_face hl.face
  have hop : k'.op = k.op := congrArg Kind.op hkind
  have hgate : k'.isGate = k.isGate := by rw [Component.isGate, hop]; rfl
  have hnot := h.not_mem hk hi
  -- what waits in the work list has no inputs, so none of it is `o`
  have hstill : ∀ x ∈ work, ∃ k, putFront front o k' x.1 = some k ∧ k.inputs = [] ∧
      ∀ v, S v → v x.1 = x.2 := by
    intro x hx
    obtain ⟨kx, hkx, hrest⟩ := h.stuck x hx
    have hne : x.1 ≠ o := by
      rintro rfl
      exact hnot (mem_map_of_mem hx)
    exact ⟨kx, by rw [putFront_of_ne _ _ hne, hkx], hrest⟩
  constructor
  case old =>
    obtain ⟨k₀, hk₀, hkind₀, hsub₀⟩ := h.old o k hk
    exact forall_putFront h.old ⟨k₀, hk₀, hkind.trans hkind₀, hl.sublist.trans hsub₀⟩
  case kept =>
    intro d k₀ hk₀ hop₀
    by_cases hd : d = o
    · exact ⟨k', by rw [hd, putFront_self]⟩
    · rw [putFront_of_ne _ _ hd]
      exact h.kept d k₀ hk₀ hop₀
  case since =>
    obtain ⟨k₁, hk₁, hsub₁, hface₁, -⟩ := h.since o k hk
    refine forall_putFront h.since ⟨k₁, hk₁, hl.sublist.trans hsub₁, hl.face.trans hface₁, fun hnil => ?_⟩
    rw [hnil] at hsub₁
    exact absurd (sublist_nil.mp hsub₁) hi
  case spent =>
    refine forall_putFront (fun d kd hd hg hnil => (h.spent d kd hd hg hnil).imp_left (hl.mem_work d))
      fun hg hnil => ?_
    obtain ⟨u, -, rfl | ⟨hplain, -⟩, -⟩ := hl.stuck hnil
    · exact .inl mem_cons_self
    · rw [hgate, hplain] at hg
      cases hg
  case stuck =>
    rcases hl.work_cases with rfl | ⟨u, rfl, hnil, hu⟩
    · exact hstill
    · exact forall_mem_cons.mpr ⟨⟨k', putFront_self _ _ _, hnil, hu⟩, hstill⟩
  case distinct =>
    rcases hl.work_cases with rfl | ⟨u, rfl, -⟩
    · exact h.distinct
    · exact nodup_cons.mpr ⟨hnot, h.distinct⟩
  case obeys =>
    refine fun v hv => forall_putFront (h.obeys v hv) fun hne => ?_
    rw [hop, ← (hl.goes hne).2.2 v hv]
    exact h.obeys v hv o k hk hi
  case lost =>
    refine forall_putFront h.lost fun hnil _ => ?_
    obtain ⟨u, hu, -⟩ := hl.stuck hnil
    exact ⟨u, hu⟩
  case value => exact fun hr => forall_putFront (h.value hr) ((hl.value hr).trans (h.value hr o k hk))
  case counted =>
    refine fun hr => forall_putFront (fun d kd hd => (h.counted hr d kd hd).imp_left fun hg =>
      ⟨hg.1, hl.mem_work d hg.2⟩) ?_
    by_cases hnil : k'.inputs = []
    · obtain ⟨u, -, hwork, hcount⟩ := hl.stuck hnil
      by_cases hg : k.isGate
      · refine .inl ⟨hgate.trans hg, ?_⟩
        obtain rfl := hwork.resolve_right fun hplain => by simp [hg] at hplain
        exact mem_cons_self
      · exact .inr (hcount hr (by rwa [Bool.not_eq_true] at hg))
    · exact .inr ((hl.goes hnil).2.1 hr)

end Core

/-! ## Cutting one edge -/

def fed (net₀ : Network) (front : CompId → Option Component) : Nat :=
  tally (fun d => (front d).elim 0 fun k => if k.inputs = [] then 0 else 1) net₀.ids

def Bereft (net₀ : Network) (front : CompId → Option Component) (l : CompId) : Prop :=
  ∃ k, front l = some k ∧ k.inputs = [] ∧ k.hasRole .legal = true ∧ net₀.inputsOf l ≠ []

def Drained (net₀ : Network) (front : CompId → Option Component) (q : CompId) : Prop :=
  ∃ k, front q = some k ∧ k.op = .proposition ∧ k.inputs = [] ∧ net₀.inputsOf q ≠ []

def Lasting (net₀ : Network) (q : CompId) : Prop :=
  net₀.op? q = some .proposition ∨ net₀.op? q = some .transition

/-- While the outputs of `c` are told its value: `rest` still are to be. -/
structure Cutting (right : Prop) (net₀ start : Network) (S : (CompId → Bool) → Prop)
    (val : CompId → Bool) (hush : CompId → Prop) (c : CompId) (bound : Nat × Nat) (rest : List CompId) (s : State) :
    Prop where
  parts : s.net.parts = net₀.parts
  capacity : s.net.capacity = net₀.capacity
  core : Core right net₀ start S val s.net.front? s.work
  loose : Loose c rest s.net
  legal : ∀ l ∈ s.legals, Bereft net₀ s.net.front? l
  quiet : ∀ q, hush q ∨ Drained net₀ s.net.front? q →
    q ∈ s.work.map (·.1) ∨ ∀ b, s.net.edgesOut q b = 0
  gone : ∀ q, hush q → q ∈ s.work.map (·.1) ∨ s.net.front? q = none ∨ Lasting net₀ q
  work_le : s.work.length + fed net₀ s.net.front? ≤ bound.1
  legals_le : s.legals.length + fed net₀ s.net.front? ≤ bound.2

section Fed

variable {net₀ : Network} {front : CompId → Option Component} {o : CompId} {k k' : Component}

theorem fed_putFront (k' : Component) (ho : o ∈ net₀.ids) (hk : front o = some k) (hi : k.inputs ≠ []) :
    fed net₀ (putFront front o k') ≤ fed net₀ front ∧
      (k'.inputs = [] → fed net₀ (putFront front o k') < fed net₀ front) := by
  have hle : ∀ d ∈ net₀.ids, ((putFront front o k' d).elim 0 fun k => if k.inputs = [] then 0 else 1) ≤
      (front d).elim 0 fun k => if k.inputs = [] then 0 else 1 := by
    intro d _
    by_cases hd : d = o
    · rw [hd, putFront_self, hk, elim_some, elim_some, if_neg hi]
      split <;> omega
    · rw [putFront_of_ne _ _ hd]
  refine ⟨tally_mono hle, fun hi' => tally_lt_of_mem hle ho ?_⟩
  rw [putFront_self, hk, elim_some, elim_some, if_neg hi, if_pos hi']
  exact Nat.zero_lt_one

theorem fed_mono {front' : CompId → Option Component} (h : ∀ d k, front' d = some k → front d = some k) :
    fed net₀ front' ≤ fed net₀ front := by
  refine tally_mono fun d _ => ?_
  cases hd : front' d with
  | none => exact Nat.zero_le _
  | some k => rw [h d k hd]

theorem fed_le_capacity (net₀ : Network) (front : CompId → Option Component) :
    fed net₀ front ≤ net₀.capacity := by
  have hle : fed net₀ front ≤ net₀.ids.length * 1 := by
    refine tally_le_mul fun d _ => ?_
    cases front d with
    | none => exact Nat.zero_le _
    | some k =>
      rw [elim_some]
      split <;> omega
  have hlen : net₀.ids.length ≤ net₀.capacity := by
    rw [ids, length_map]
    exact net₀.length_components_le
  omega

theorem Bereft.putFront {l : CompId} (h : Bereft net₀ front l) (hk : front o = some k)
    (hi : k.inputs ≠ []) : Bereft net₀ (putFront front o k') l := by
  obtain ⟨kl, hkl, hnil, hrest⟩ := h
  have hne : l ≠ o := by
    rintro rfl
    rw [hk] at hkl
    cases hkl
    exact hi hnil
  exact ⟨kl, by rw [putFront_of_ne _ _ hne, hkl], hnil, hrest⟩

theorem Drained.of_putFront {q : CompId} (h : Drained net₀ (putFront front o k') q) :
    q = o ∧ k'.op = .proposition ∧ k'.inputs = [] ∨ Drained net₀ front q := by
  obtain ⟨kq, hq, hop, hnil, hne⟩ := h
  rcases putFront_cases hq with ⟨hqo, rfl⟩ | ⟨-, hq⟩
  · exact .inl ⟨hqo, hop, hnil⟩
  · exact .inr ⟨kq, hq, hop, hnil, hne⟩

end Fed

section Cut

variable {right : Prop} {net₀ start net' : Network} {S : (CompId → Bool) → Prop}
  {val : CompId → Bool} {hush : CompId → Prop} {c o : CompId} {bound : Nat × Nat} {rest : List CompId} {s : State}
  {k k' : Component}

theorem Cutting.mem_ids (h : Cutting right net₀ start S val hush c bound rest s)
    (hk : s.net.front? o = some k) : o ∈ net₀.ids := by
  obtain ⟨k₀, hk₀, -⟩ := h.core.old o k hk
  exact Network.mem_ids.mpr (contains_of_get? hk₀)

theorem Cutting.put {work' : List (CompId × Bool)} {legals' : List CompId}
    (h : Cutting right net₀ start S val hush c bound (o :: rest) s) (hk : s.net.front? o = some k)
    (hi : k.inputs ≠ []) (hless : Lessens right S val o k k' s.work work')
    (hsilent : work' = s.work → k'.inputs = [] → k.op = .proposition → ∀ b, s.net.edgesOut o b = 0)
    (hlegals : legals' = s.legals ∨ legals' = s.legals ++ [o] ∧ k'.inputs = [] ∧ k.hasRole .legal)
    (hfront : net'.front? = putFront s.net.front? o k')
    (hparts : net'.parts = s.net.parts ∧ net'.capacity = s.net.capacity)
    (hloose : Loose c rest net' ∧ ∀ a b, net'.edgesOut a b ≤ s.net.edgesOut a b) :
    Cutting right net₀ start S val hush c bound rest
      { s with net := net', work := work', legals := legals' } := by
  obtain ⟨hfed, hfed'⟩ := fed_putFront k' (h.mem_ids hk) hk hi
  have hkind := Component.kind_of_face hless.face
  have hw := h.work_le
  have hl := h.legals_le
  refine ⟨hparts.1.trans h.parts, hparts.2.trans h.capacity, hfront ▸ h.core.put hk hi hless, hloose.1,
    fun l hl => ?_, ?_, fun q hush => ?_, ?_, ?_⟩
  · dsimp only
    rw [hfront]
    rcases hlegals with rfl | ⟨rfl, hi', hrole⟩
    · exact (h.legal l hl).putFront hk hi
    rcases mem_append.mp hl with hl | hl
    · exact (h.legal l hl).putFront hk hi
    rw [mem_singleton.mp hl]
    obtain ⟨k₀, hk₀, -, hsub⟩ := h.core.old o k hk
    refine ⟨k', putFront_self _ _ _, hi', ?_, ?_⟩
    · rw [← hrole, Component.hasRole, Component.role?, Component.proposition?, hkind]
      rfl
    rw [inputsOf_of_get? hk₀]
    intro h0
    rw [h0] at hsub
    exact hi (sublist_nil.mp hsub)
  · intro q hq
    have hquiet : q ∈ work'.map (·.1) ∨ ∀ b, s.net.edgesOut q b = 0 := by
      rcases hq with hq | hd
      · exact (h.quiet q (.inl hq)).imp_left (hless.mem_work q)
      dsimp only at hd
      rw [hfront] at hd
      -- only `o` can have lost its last input just now
      rcases hd.of_putFront with ⟨rfl, hop, hi'⟩ | hd
      · rcases hless.work_cases with hwork | ⟨u, rfl, -⟩
        · exact .inr (hsilent hwork hi' ((congrArg Kind.op hkind).symm.trans hop))
        · exact .inl mem_cons_self
      · exact (h.quiet q (.inr hd)).imp_left (hless.mem_work q)
    refine hquiet.imp_right fun hzero b => ?_
    have := hloose.2 q b
    rw [hzero b] at this
    dsimp only
    omega
  · exact (h.gone q hush).imp (hless.mem_work q)
      (Or.imp_left fun hnone => hfront ▸ putFront_none k' hk hnone)
  · dsimp only
    rw [hfront]
    rcases hless.work_cases with rfl | ⟨u, rfl, hi', -⟩
    · omega
    have := hfed' hi'
    rw [length_cons]
    omega
  · dsimp only
    rw [hfront]
    rcases hlegals with rfl | ⟨rfl, hi', -⟩
    · omega
    have := hfed' hi'
    rw [length_append, length_singleton]
    omega

/-! What an input that is stuck does to the component that reads it. -/

theorem any_erase {l : List CompId} {v : CompId → Bool} (hv : v c = false) : (l.erase c).any v = l.any v := by
  rw [Bool.eq_iff_iff, List.any_eq_true, List.any_eq_true]
  have hne : ∀ a, v a = true → a ≠ c := by
    rintro a ha rfl
    rw [hv] at ha
    cases ha
  constructor
  · rintro ⟨a, ha, hva⟩
    exact ⟨a, mem_of_mem_erase ha, hva⟩
  · rintro ⟨a, ha, hva⟩
    exact ⟨a, (mem_erase_of_ne (hne a hva)).mpr ha, hva⟩

theorem all_erase {l : List CompId} {v : CompId → Bool} (hv : v c) : (l.erase c).all v = l.all v := by
  rw [Bool.eq_iff_iff, List.all_eq_true, List.all_eq_true]
  constructor
  · intro h a ha
    by_cases hac : a = c
    · rw [hac, hv]
    · exact h a ((mem_erase_of_ne hac).mpr ha)
  · intro h a ha
    exact h a (mem_of_mem_erase ha)

theorem counted_erase_or (h : k.Counted val) (hop : k.op = .or) (hv : val c = false) :
    (k.without c).Counted val := by
  obtain ⟨⟨ht, hf, hs⟩, hc⟩ := h
  have hgate : k.isGate := by rw [Component.isGate, hop]; rfl
  have hop' : (k.without c).op = .or := hop
  refine ⟨⟨?_, ?_, hs⟩, fun _ => ?_⟩
  · rw [hop, if_neg (by decide)] at ht
    rw [hop', if_neg (by decide)]
    exact ht
  · rw [hop, if_neg (by decide)] at hf
    rw [hop', if_neg (by decide)]
    exact hf
  · have hcnt := hc (.inl hgate)
    change k.count = ((k.inputs.erase c).countP val : Nat)
    rw [hcnt, countP_erase, hv]
    simp

theorem counted_erase_and (h : k.Counted val) (hop : k.op = .and) (hmem : c ∈ k.inputs) (hv : val c) :
    (k.without c).lessTrue.Counted val ∧ (k.without c).lessTrue.value = k.value := by
  set k' := k.without c
  obtain ⟨⟨ht, hf, hs⟩, hc⟩ := h
  have hgate : k.isGate := by rw [Component.isGate, hop]; rfl
  have hcnt := hc (.inl hgate)
  rw [hop, if_pos rfl] at ht hf
  have hlen : (k.inputs.erase c).length + 1 = k.inputs.length := by
    have hpos := length_pos_of_mem hmem
    rw [length_erase_of_mem hmem]
    omega
  have hcntP : (k.inputs.erase c).countP val + 1 = k.inputs.countP val := by
    have hpos : 0 < k.inputs.countP val := countP_pos_iff.mpr ⟨c, hmem, hv⟩
    rw [countP_erase, if_pos ⟨hmem, hv⟩]
    omega
  have hle := countP_le_length (p := val) (l := k.inputs.erase c)
  -- nothing wraps around: all three numbers stay within the fan-in
  have hwrap : ∀ n : Int, -1 ≤ n → n ≤ (k.inputs.erase c).length → k'.wrap n = n := by
    intro n hlo hhi
    refine Component.wrap_of_le_length ?_ hhi
    change (-2147483648 : Int) ≤ n
    omega
  have h1 : k'.lessTrue.count = ((k.inputs.erase c).countP val : Nat) := by
    change k'.wrap (k.count - 1) = _
    rw [hcnt, hwrap] <;> omega
  have h2 : k'.lessTrue.reqTrue = ((k.inputs.erase c).length : Nat) := by
    change k'.wrap (k.reqTrue - 1) = _
    rw [ht, hwrap] <;> omega
  have h3 : k'.lessTrue.reqFalse = ((k.inputs.erase c).length : Int) - 1 := by
    change k'.wrap (k.reqFalse - 1) = _
    rw [hf, hwrap] <;> omega
  have hop' : k'.lessTrue.op = .and := hop
  have hsign : k'.lessTrue.sign = k.sign := rfl
  refine ⟨⟨⟨?_, ?_, ?_⟩, fun _ => h1⟩, ?_⟩
  · rw [h2, hop', if_pos rfl]
    rfl
  · rw [h3, hop', if_pos rfl]
    rfl
  · rw [hsign, hs, hop, hop']
  · rw [Component.value, Component.value, h1, h2, hsign, hcnt, ht]
    congr 1
    rw [Bool.eq_iff_iff, decide_eq_true_eq, decide_eq_true_eq]
    omega

theorem modify_without_eq (hk : s.net.get? o = some k) :
    (s.net.modify o fun _ => k.without c) = s.net.modify o (·.without c) := by
  refine modify_congr fun x hx => ?_
  rw [hk] at hx
  cases hx
  rfl

theorem get?_without (hk : s.net.get? o = some k) :
    (s.net.modify o fun _ => k.without c).get? o = some (k.without c) := by
  rw [get?_modify, if_pos rfl, hk]
  rfl

section Meet

/-! The output `o` reads `c`, which is stuck at `w`. -/

variable {w u : Bool} (h : Cutting right net₀ start S val hush c bound (o :: rest) s)
  (hk : s.net.get? o = some k) (hmem : c ∈ k.inputs)

include h hk hmem

theorem Cutting.read {v : CompId → Bool} (hv : S v) : v o = k.op.read k.inputs v :=
  h.core.obeys v hv o k.front (front?_of_get? hk) (ne_nil_of_mem hmem)

theorem Cutting.counted (hr : right) : k.front.Counted val := by
  have hf := front?_of_get? hk
  rcases h.core.counted hr o k.front hf with ⟨-, hm⟩ | hc
  · exact absurd hm (h.core.not_mem hf (ne_nil_of_mem hmem))
  · exact hc

theorem Cutting.inputs_eq (hn : net₀.Narrow) (hand : k.op ≠ .and) (hor : k.op ≠ .or) :
    k.inputs = [c] ∧ k.inputs.erase c = [] := by
  suffices hin : k.inputs = [c] from ⟨hin, by rw [hin, erase_cons_head]⟩
  obtain ⟨k₀, hk₀, hkind, hsub⟩ := h.core.old o k.front (front?_of_get? hk)
  have hop : k.op = k₀.op := congrArg Kind.op hkind
  have hlen := (hn o k₀ hk₀).1 (hop ▸ hand) (hop ▸ hor)
  have hle : k.inputs.length ≤ k₀.inputs.length := hsub.length_le
  rcases hin : k.inputs with _ | ⟨a, _ | ⟨b, rest⟩⟩
  · rw [hin] at hmem
    cases hmem
  · rw [hin] at hmem
    rw [mem_singleton.mp hmem]
  · rw [hin, length_cons, length_cons] at hle
    omega

theorem Cutting.op_ne_constant (hn : net₀.Narrow) : k.op ≠ .constant := by
  intro hop
  obtain ⟨k₀, hk₀, hkind, hsub⟩ := h.core.old o k.front (front?_of_get? hk)
  have hop₀ : k₀.op = .constant := (congrArg Kind.op hkind).symm.trans hop
  have hsub' : k.inputs.Sublist [] := (hn o k₀ hk₀).2 hop₀ ▸ hsub
  rw [sublist_nil.mp hsub'] at hmem
  cases hmem

omit hmem in
theorem Cutting.loose_without : Loose c rest (s.net.modify o fun _ => k.without c) ∧
    ∀ a b, (s.net.modify o fun _ => k.without c).edgesOut a b ≤ s.net.edgesOut a b := by
  rw [modify_without_eq hk]
  exact h.loose.eraseInput (contains_of_get? hk)

theorem Cutting.drop (hgate : k.isGate) (hu : ∀ v, S v → v o = u) :
    Cutting right net₀ start S val hush c bound rest { s with
      net := dropInputs (s.net.modify o fun _ => k.without c) o
      work := (o, u) :: s.work } := by
  have hk₁ := get?_without (c := c) hk
  have hfront : (dropInputs (s.net.modify o fun _ => k.without c) o).front? =
      putFront s.net.front? o { k.front with inputs := [] } := by
    rw [front?_dropInputs hk₁, front?_modify (e := k.front.without c) _ _ hk rfl, putFront_putFront]
    rfl
  have hparts := rewires_dropInputs (fun _ => True) (s.net.modify o fun _ => k.without c) o
  have hless : Lessens right S val o k.front { k.front with inputs := [] } s.work ((o, u) :: s.work) :=
    ⟨Component.face_of_bare rfl, nil_sublist _, fun _ => rfl, fun hne => absurd rfl hne,
      fun _ => ⟨u, hu, .inl rfl, fun _ hg => by cases hgate.symm.trans hg⟩⟩
  obtain ⟨hloose, hle⟩ := h.loose_without hk
  obtain ⟨hloose', hle'⟩ := hloose.dropInputs hk₁
  exact h.put (front?_of_get? hk) (ne_nil_of_mem hmem) hless (fun hwork => by simp at hwork) (.inl rfl)
    hfront ⟨hparts.parts, hparts.capacity.trans (capacity_modify _ _ _)⟩
    ⟨hloose', fun a b => (hle' a b).trans (hle a b)⟩

theorem Cutting.last {work' : List (CompId × Bool)} {legals' : List CompId}
    (hnil : k.inputs.erase c = []) (hu : ∀ v, S v → v o = u)
    (hwork : work' = (o, u) :: s.work ∨
      k.isGate = false ∧ work' = s.work ∧ (k.op = .proposition → k.outputs = []))
    (hlegals : legals' = s.legals ∨ legals' = s.legals ++ [o] ∧ k.hasRole .legal) :
    Cutting right net₀ start S val hush c bound rest { s with
      net := s.net.modify o fun _ => k.without c, work := work', legals := legals' } := by
  have hcount : right → k.front.isGate = false → (k.front.without c).Counted val := by
    intro hr hg
    obtain ⟨hst, -⟩ := h.counted hk hmem hr
    obtain ⟨h1, h2, h3⟩ := hst.plain hg
    have hop : (k.front.without c).isGate = false := hg
    refine ⟨⟨?_, ?_, hst.sign⟩, fun hor => ?_⟩
    · rw [if_neg (fun hand => by rw [Component.isGate, hand] at hop; cases hop)]
      exact h1
    · rw [if_neg (fun hand => by rw [Component.isGate, hand] at hop; cases hop)]
      exact h2
    · rcases hor with hg' | hne
      · rw [hop] at hg'
        cases hg'
      · exact absurd hnil hne
  have hless : Lessens right S val o k.front (k.front.without c) s.work work' :=
    ⟨Component.face_of_bare rfl, erase_sublist, fun _ => rfl, fun hne => absurd hnil hne,
      fun _ => ⟨u, hu, hwork.imp_right fun hw => ⟨hw.1, hw.2.1⟩, hcount⟩⟩
  refine h.put (front?_of_get? hk) (ne_nil_of_mem hmem) hless (fun hsame _ hop b => ?_)
    (hlegals.imp_right fun hl => ⟨hl.1, hnil, hl.2⟩) (front?_modify _ _ hk rfl)
    ⟨rfl, capacity_modify _ _ _⟩ (h.loose_without hk)
  rcases hwork with hwork | ⟨-, -, hout⟩
  · simp [hwork] at hsame
  · rw [edgesOut, outputsOf_of_get? hk, hout hop, count_nil]

theorem Cutting.keep_or (hop : k.op = .or) (hne : k.inputs.erase c ≠ [])
    (hw : ∀ v, S v → v c = false) (hS : right → S val) :
    Cutting right net₀ start S val hush c bound rest { s with
      net := s.net.modify o fun _ => k.without c } := by
  have hread : ∀ v, S v → k.op.read k.inputs v = k.op.read (k.inputs.erase c) v := by
    intro v hv
    rw [hop]
    exact (any_erase (hw v hv)).symm
  have hless : Lessens right S val o k.front (k.front.without c) s.work s.work :=
    ⟨Component.face_of_bare rfl, erase_sublist, fun _ => rfl,
      fun _ => ⟨rfl, fun hr => counted_erase_or (h.counted hk hmem hr) hop (hw val (hS hr)), hread⟩,
      fun hnil => absurd hnil hne⟩
  exact h.put (front?_of_get? hk) (ne_nil_of_mem hmem) hless (fun _ hnil => absurd hnil hne) (.inl rfl)
    (front?_modify _ _ hk rfl) ⟨rfl, capacity_modify _ _ _⟩ (h.loose_without hk)

theorem Cutting.less_and (hop : k.op = .and) (hw : ∀ v, S v → v c) (hS : right → S val) :
    Cutting right net₀ start S val hush c bound rest { s with
      net := (s.net.modify o fun _ => k.without c).modify o Component.lessTrue
      work := if (k.inputs.erase c).isEmpty then (o, true) :: s.work else s.work } := by
  have hgate : k.front.isGate := by
    change k.op.isGate
    rw [hop]
    rfl
  have hcount : right → (k.front.without c).lessTrue.Counted val ∧
      (k.front.without c).lessTrue.value = k.front.value := fun hr =>
    counted_erase_and (h.counted hk hmem hr) hop hmem (hw val (hS hr))
  have hfront : ((s.net.modify o fun _ => k.without c).modify o Component.lessTrue).front? =
      putFront s.net.front? o (k.front.without c).lessTrue := by
    rw [front?_modify (e := (k.front.without c).lessTrue) _ o (get?_without hk) rfl,
      front?_modify (e := k.front.without c) _ _ hk rfl, putFront_putFront]
  obtain ⟨hloose, hle⟩ := h.loose_without hk
  have hloose' := hloose.modify_of_eq (o := o) (f := Component.lessTrue) (fun _ => rfl) fun _ => rfl
  have hread : ∀ v, S v → k.op.read k.inputs v = k.op.read (k.inputs.erase c) v := by
    intro v hv
    rw [hop]
    exact (all_erase (hw v hv)).symm
  have hless : Lessens right S val o k.front (k.front.without c).lessTrue s.work
      (if (k.inputs.erase c).isEmpty then (o, true) :: s.work else s.work) := by
    refine ⟨Component.face_eq_of_isGate hgate rfl rfl rfl fun hne => absurd hop hne, erase_sublist,
      fun hr => (hcount hr).2, fun hne => ⟨if_neg (mt List.isEmpty_iff.mp hne), fun hr => (hcount hr).1, hread⟩,
      fun hnil => ⟨true, fun v hv => ?_, .inl (if_pos (List.isEmpty_iff.mpr hnil)),
        fun _ hg => by cases hgate.symm.trans hg⟩⟩
    rw [h.read hk hmem hv, hread v hv, show k.inputs.erase c = [] from hnil, hop]
    rfl
  refine h.put (front?_of_get? hk) (ne_nil_of_mem hmem) hless (fun _ _ hprop => ?_) (.inl rfl) hfront
    ⟨rfl, by rw [capacity_modify, capacity_modify]⟩ ⟨hloose'.1, fun a b => (hloose'.2 a b).le.trans (hle a b)⟩
  cases hop.symm.trans hprop

theorem Cutting.notify (hn : net₀.Narrow) (hw : ∀ v, S v → v c = w) (hS : right → S val) :
    (Constants.notify { s with net := s.net.modify o fun _ => k.without c } o (k.without c) w).Yields
      (Cutting right net₀ start S val hush c bound rest) := by
  have hread : ∀ v, S v → v o = k.op.read k.inputs v := fun v hv => h.read hk hmem hv
  have hop₁ : (k.without c).op = k.op := rfl
  unfold Constants.notify
  rw [hop₁]
  cases hop : k.op with
  | or =>
    rw [hop] at hread
    have hgate : k.isGate := by rw [Component.isGate, hop]; rfl
    cases w with
    | true =>
      refine .pure (h.drop hk hmem hgate fun v hv => ?_)
      rw [hread v hv]
      exact any_eq_true.mpr ⟨c, hmem, hw v hv⟩
    | false =>
      dsimp only
      by_cases hnil : (k.without c).inputs = []
      · rw [if_pos (List.isEmpty_iff.mpr hnil)]
        refine .pure (h.last hk hmem hnil (fun v hv => ?_) (.inl rfl) (.inl rfl))
        rw [hread v hv]
        change k.inputs.any v = false
        rw [← any_erase (hw v hv), show k.inputs.erase c = [] from hnil]
        rfl
      · rw [if_neg (mt List.isEmpty_iff.mp hnil)]
        exact .pure (h.keep_or hk hmem hop hnil hw hS)
  | and =>
    rw [hop] at hread
    have hgate : k.isGate := by rw [Component.isGate, hop]; rfl
    cases w with
    | true => exact .pure (h.less_and hk hmem hop hw hS)
    | false =>
      refine .pure (h.drop hk hmem hgate fun v hv => ?_)
      rw [hread v hv]
      exact all_eq_false.mpr ⟨c, hmem, by rw [hw v hv]; decide⟩
  | not =>
    obtain ⟨hin, hnil⟩ := h.inputs_eq hk hmem hn (by rw [hop]; decide) (by rw [hop]; decide)
    refine .pure (h.last hk hmem hnil (fun v hv => ?_) (.inl rfl) (.inl rfl))
    rw [hread v hv, hop, hin, Op.read_not_singleton, hw v hv]
  | transition =>
    obtain ⟨hin, hnil⟩ := h.inputs_eq hk hmem hn (by rw [hop]; decide) (by rw [hop]; decide)
    have hu : ∀ v, S v → v o = w := by
      intro v hv
      rw [hread v hv, hop, hin, Op.read_singleton _ (by decide), hw v hv]
    refine .pure (h.last hk hmem hnil hu (.inr ⟨by rw [Component.isGate, hop]; rfl, rfl, fun hp => ?_⟩)
      (.inl rfl))
    rw [hop] at hp
    cases hp
  | proposition =>
    obtain ⟨hin, hnil⟩ := h.inputs_eq hk hmem hn (by rw [hop]; decide) (by rw [hop]; decide)
    have hu : ∀ v, S v → v o = w := by
      intro v hv
      rw [hread v hv, hop, hin, Op.read_singleton _ (by decide), hw v hv]
    refine .pure (h.last hk hmem hnil hu ?_ ?_)
    · dsimp only
      split
      · next ho => exact .inr ⟨by rw [Component.isGate, hop]; rfl, rfl, fun _ => List.isEmpty_iff.mp ho⟩
      · exact .inl rfl
    · dsimp only
      split
      · next hl => exact .inr ⟨rfl, hl⟩
      · exact .inl rfl
  | constant => exact absurd hop (h.op_ne_constant hk hmem hn)

end Meet

theorem Cutting.step {w : Bool} (h : Cutting right net₀ start S val hush c bound (o :: rest) s)
    (hn : net₀.Narrow) (hw : ∀ v, S v → v c = w) (hS : right → S val) :
    (cut c w s o).Yields (Cutting right net₀ start S val hush c bound rest) := by
  unfold cut
  cases hk : s.net.get? o with
  | none =>
    have h0 : s.net.edgesIn c o = 0 := by
      rw [edgesIn, inputsOf, hk]
      rfl
    exact .pure { h with loose := h.loose.skip h0 }
  | some k =>
    dsimp only
    by_cases hc : k.inputs.contains c = true
    · rw [if_pos hc]
      exact h.notify hk (contains_iff_mem.mp hc) hn hw hS
    rw [if_neg hc]
    have h0 : s.net.edgesIn c o = 0 := by
      rw [edgesIn, inputsOf_of_get? hk, count_eq_zero]
      exact fun hm => hc (contains_iff_mem.mpr hm)
    exact .pure { h with loose := h.loose.skip h0 }

end Cut

/-! ## Folding one component after another -/

section Pop

variable {right : Prop} {net₀ start : Network} {S : (CompId → Bool) → Prop} {val : CompId → Bool}
  {front : CompId → Option Component} {work : List (CompId × Bool)} {c : CompId} {w : Bool}
  {k : Component}

theorem Core.pop (h : Core right net₀ start S val front ((c, w) :: work)) (hk : front c = some k)
    (hg : k.isGate = false) : Core right net₀ start S val front work := by
  have hgone : ∀ {d kd}, front d = some kd → kd.isGate → d ∈ ((c, w) :: work).map (·.1) →
      d ∈ work.map (·.1) := by
    intro d kd hd hgd hm
    rcases mem_cons.mp hm with rfl | hm
    · rw [hk] at hd
      cases hd
      rw [hg] at hgd
      cases hgd
    · exact hm
  refine { h with
    stuck := (forall_mem_cons.mp h.stuck).2
    distinct := (nodup_cons.mp h.distinct).2
    spent := fun d kd hd hgd hnil => (h.spent d kd hd hgd hnil).imp_left (hgone hd hgd)
    counted := fun hr d kd hd => ?_ }
  rcases h.counted hr d kd hd with ⟨hgd, hm⟩ | hc
  · exact .inl ⟨hgd, hgone hd hgd hm⟩
  · exact .inr hc

def dropFront (front : CompId → Option Component) (c d : CompId) : Option Component :=
  if d = c then none else front d

theorem dropFront_eq_some {d : CompId} (h : dropFront front c d = some k) : d ≠ c ∧ front d = some k := by
  unfold dropFront at h
  split at h
  · cases h
  · next hd => exact ⟨hd, h⟩

theorem Core.remove (h : Core right net₀ start S val front ((c, w) :: work)) (hk : front c = some k)
    (hop : ¬ (k.op = .proposition ∨ k.op = .transition)) :
    Core right net₀ start S val (dropFront front c) work := by
  have hdist := nodup_cons.mp h.distinct
  constructor
  case old => exact fun d kd hd => h.old d kd (dropFront_eq_some hd).2
  case kept =>
    intro d k₀ hk₀ hop₀
    obtain ⟨kd, hd⟩ := h.kept d k₀ hk₀ hop₀
    refine ⟨kd, ?_⟩
    rw [dropFront, if_neg, hd]
    rintro rfl
    rw [hk] at hd
    cases hd
    obtain ⟨k₁, hk₁, hkind, -⟩ := h.old d k hk
    rw [hk₀] at hk₁
    cases hk₁
    exact hop (by rwa [show k.op = k₀.op from congrArg Kind.op hkind])
  case since => exact fun d kd hd => h.since d kd (dropFront_eq_some hd).2
  case spent =>
    intro d kd hd hg hnil
    obtain ⟨hne, hd⟩ := dropFront_eq_some hd
    exact (h.spent d kd hd hg hnil).imp_left fun hm => (mem_cons.mp hm).resolve_left hne
  case stuck =>
    intro x hx
    obtain ⟨kx, hkx, hrest⟩ := h.stuck x (mem_cons_of_mem _ hx)
    refine ⟨kx, ?_, hrest⟩
    rw [dropFront, if_neg, hkx]
    rintro rfl
    exact hdist.1 (mem_map.mpr ⟨x, hx, rfl⟩)
  case distinct => exact hdist.2
  case obeys => exact fun v hv d kd hd => h.obeys v hv d kd (dropFront_eq_some hd).2
  case lost => exact fun d kd hd => h.lost d kd (dropFront_eq_some hd).2
  case value => exact fun hr d kd hd => h.value hr d kd (dropFront_eq_some hd).2
  case counted =>
    intro hr d kd hd
    obtain ⟨hne, hd⟩ := dropFront_eq_some hd
    rcases h.counted hr d kd hd with ⟨hgd, hm⟩ | hc
    · exact .inl ⟨hgd, (mem_cons.mp hm).resolve_left hne⟩
    · exact .inr hc

theorem front?_remove (net : Network) (c : CompId) : (net.remove c).front? = dropFront net.front? c := by
  funext d
  rw [front?, get?_remove, dropFront]
  split
  · rfl
  · rfl

end Pop

structure Folding (right : Prop) (net₀ start : Network) (S : (CompId → Bool) → Prop)
    (val : CompId → Bool) (hush : CompId → Prop) (bound : Nat) (s : State) : Prop where
  parts : s.net.parts = net₀.parts
  capacity : s.net.capacity = net₀.capacity
  core : Core right net₀ start S val s.net.front? s.work
  balanced : s.net.Balanced
  legal : ∀ l ∈ s.legals, Bereft net₀ s.net.front? l
  quiet : ∀ q, hush q ∨ Drained net₀ s.net.front? q →
    q ∈ s.work.map (·.1) ∨ ∀ b, s.net.edgesOut q b = 0
  gone : ∀ q, hush q → q ∈ s.work.map (·.1) ∨ s.net.front? q = none ∨ Lasting net₀ q
  legals_le : s.legals.length + fed net₀ s.net.front? ≤ bound

section Fold

variable {right : Prop} {net₀ start : Network} {S : (CompId → Bool) → Prop} {val : CompId → Bool}
  {hush : CompId → Prop} {c : CompId} {w : Bool} {bound : Nat} {s : State} {work : List (CompId × Bool)}

section

variable (h : Folding right net₀ start S val hush bound s) (hwork : s.work = (c, w) :: work)
include h hwork

/-- The component `c` is no longer read. It has gone or it lasts, and nothing else has changed. -/
theorem Folding.popped {net' : Network} {rest : List CompId} (hparts : net'.parts = s.net.parts)
    (hcap : net'.capacity = s.net.capacity) (hcore : Core right net₀ start S val net'.front? work)
    (hloose : Loose c rest net') (hold : ∀ d k, net'.front? d = some k → s.net.front? d = some k)
    (hlegal : ∀ l ∈ s.legals, Bereft net₀ net'.front? l)
    (houts : ∀ a b, net'.edgesOut a b ≤ s.net.edgesOut a b) (hc : net'.front? c = none ∨ Lasting net₀ c) :
    Cutting right net₀ start S val hush c (work.length + fed net₀ s.net.front?, bound) rest
      { s with net := net', work := work, folded := s.folded + 1 } := by
  have hmem : ∀ q, q ∈ s.work.map (·.1) → q = c ∨ q ∈ work.map (·.1) := by
    intro q hq
    rw [hwork] at hq
    exact mem_cons.mp hq
  have hfed : fed net₀ net'.front? ≤ fed net₀ s.net.front? := fed_mono hold
  refine ⟨hparts.trans h.parts, hcap.trans h.capacity, hcore, hloose, hlegal, fun q hq => ?_,
    fun q hush => ?_, Nat.add_le_add_left hfed _, (Nat.add_le_add_left hfed _).trans h.legals_le⟩
  · have hstill : Drained net₀ net'.front? q → Drained net₀ s.net.front? q := by
      rintro ⟨kq, hkq, hrest⟩
      exact ⟨kq, hold q kq hkq, hrest⟩
    rcases h.quiet q (hq.imp_right hstill) with hq | hq
    · rcases hmem q hq with rfl | hq
      · exact .inr hloose.out
      · exact .inl hq
    · exact .inr fun b => Nat.le_zero.mp ((houts q b).trans (hq b).le)
  · rcases h.gone q hush with hq | hq
    · rcases hmem q hq with rfl | hq
      · exact .inr hc
      · exact .inl hq
    · refine .inr (hq.imp_left fun hnone => eq_none_iff_forall_ne_some.mpr fun k hk => ?_)
      rw [hold q k hk] at hnone
      cases hnone

theorem Folding.release {k : Component} (hk : s.net.get? c = some k)
    (hlast : k.op = .proposition ∨ k.op = .transition) :
    Cutting right net₀ start S val hush c (work.length + fed net₀ s.net.front?, bound) k.outputs.reverse
      { s with net := s.net.modify c fun k => { k with outputs := [] }, work := work,
               folded := s.folded + 1 } := by
  have hg : k.isGate = false := by
    rw [Component.isGate]
    rcases hlast with hop | hop
    · rw [hop]; rfl
    · rw [hop]; rfl
  have hcore := h.core
  rw [hwork] at hcore
  have hw : Wired (s.net.modify c fun k => { k with outputs := [] }) s.net.edgesIn
      fun a b => if a = c then 0 else s.net.edgesIn a b := by
    refine h.balanced.wired.modify_outputs (contains_of_get? hk) (fun _ => []) (fun b => ?_)
      fun a b ha => if_neg ha
    rw [if_pos rfl]
    rfl
  have hfront : (s.net.modify c fun k => { k with outputs := [] }).front? = s.net.front? :=
    front?_modify_outputs s.net c
  refine h.popped hwork rfl (capacity_modify _ _ _) ?_ ⟨fun b => ?_, fun b => ?_, fun a b ha => ?_⟩
    (fun d kd hd => hfront ▸ hd) (hfront ▸ h.legal) (fun a b => ?_) (.inr ?_)
  · rw [hfront]
    exact hcore.pop (front?_of_get? hk) hg
  · rw [hw.outs, if_pos rfl]
  · rw [hw.ins, ← h.balanced c b, edgesOut, outputsOf_of_get? hk, count_reverse]
  · rw [hw.outs, hw.ins, if_neg ha]
  · rw [hw.outs, h.balanced a b]
    split <;> omega
  · -- only gates and constants would have to go
    obtain ⟨k₀, hk₀, hkind, -⟩ := hcore.old c k.front (front?_of_get? hk)
    have hop : k.op = k₀.op := congrArg Kind.op hkind
    rw [Lasting, op?_of_get? hk₀, ← hop]
    exact hlast.imp (congrArg some) (congrArg some)

theorem Folding.remove {k : Component} (hk : s.net.get? c = some k)
    (hop : ¬ (k.op = .proposition ∨ k.op = .transition)) :
    Cutting right net₀ start S val hush c (work.length + fed net₀ s.net.front?, bound) k.outputs.reverse
      { s with net := s.net.remove c, work := work, folded := s.folded + 1 } := by
  have hcore := h.core
  rw [hwork] at hcore
  obtain ⟨kf, hkf, hnil, -⟩ := hcore.stuck (c, w) mem_cons_self
  have hnil' : s.net.inputsOf c = [] := (inputsOf_of_front? hkf).trans hnil
  have hw := h.balanced.wired.remove c
  have hfront := front?_remove s.net c
  refine h.popped hwork rfl Array.size_modify ?_ ⟨fun b => ?_, fun b => ?_, fun a b ha => ?_⟩
    (fun d kd hd => ?_) (fun l hl => ?_) (fun a b => ?_) (.inl ?_)
  · rw [hfront]
    exact hcore.remove (front?_of_get? hk) hop
  · rw [hw.outs, if_pos rfl]
  · rw [hw.ins, count_reverse]
    split
    · exact Nat.zero_le _
    · rw [← h.balanced c b, edgesOut, outputsOf_of_get? hk]
  · rw [hw.outs, hw.ins, if_neg ha]
    split
    · next hb => rw [hb, edgesIn, hnil', count_nil]
    · rfl
  · rw [hfront] at hd
    exact (dropFront_eq_some hd).2
  · obtain ⟨kl, hkl, hi, hrole, hfed⟩ := h.legal l hl
    refine ⟨kl, ?_, hi, hrole, hfed⟩
    rw [hfront, dropFront, if_neg, hkl]
    rintro rfl
    rw [front?_of_get? hk] at hkl
    cases hkl
    exact hop (.inl (Component.op_of_hasRole hrole))
  · rw [hw.outs, h.balanced a b]
    split <;> omega
  · rw [hfront, dropFront, if_pos rfl]

theorem Folding.detach : (Constants.detach s.net c).Yields fun r => Cutting right net₀ start S val hush c
      (work.length + fed net₀ s.net.front?, bound) r.1.reverse
      { s with net := r.2, work := work, folded := s.folded + 1 } := by
  obtain ⟨kf, hkf, -⟩ := h.core.stuck (c, w) (by rw [hwork]; exact mem_cons_self)
  obtain ⟨k, hk, rfl⟩ := exists_of_front? hkf
  unfold Constants.detach
  refine .bind_ok (get_of_get? hk) ?_
  split
  · next hop => exact .pure (h.release hwork hk (.inl hop))
  · next hop => exact .pure (h.release hwork hk (.inr hop))
  next hprop htrans =>
  refine .pure (h.remove hwork hk ?_)
  rintro (hop | hop)
  · exact hprop hop
  · exact htrans hop

end

theorem Folding.turn (hn : net₀.Narrow) (hS : right → S val)
    (h : Folding right net₀ start S val hush bound s) : (Constants.turn s).Yields (Guarantee.Reaches
      (fun s' => Folding right net₀ start S val hush bound s' ∧
        s'.work.length + fed net₀ s'.net.front? < s.work.length + fed net₀ s.net.front?)
      fun s' => Folding right net₀ start S val hush bound s' ∧ s'.work = []) := by
  unfold Constants.turn
  rcases hwork : s.work with _ | ⟨⟨c, w⟩, work⟩
  · exact .pure ⟨h, hwork⟩
  have hw : ∀ v, S v → v c = w := by
    obtain ⟨-, -, -, hw⟩ := h.core.stuck (c, w) (by rw [hwork]; exact mem_cons_self)
    exact hw
  refine .bind (h.detach hwork) fun r hr => ?_
  refine .bind (Checked.total.foldlM (Cutting right net₀ start S val hush c _)
    (fun o rest s' h' => h'.step hn hw hS) r.1.reverse _ hr) fun s' h' => .pure ?_
  refine ⟨⟨h'.parts, h'.capacity, h'.core, h'.loose.balanced, h'.legal, h'.quiet, h'.gone,
    h'.legals_le⟩, ?_⟩
  have hle := h'.work_le
  rw [length_cons]
  omega

theorem fold_yields (hn : net₀.Narrow) (hS : right → S val) {s : State}
    (h : Folding right net₀ start S val hush bound { s with work := [(c, w)] }) :
    (fold s c w).Yields fun s' => Folding right net₀ start S val hush bound s' ∧ s'.work = [] := by
  refine Checked.total.run (Folding right net₀ start S val hush bound)
    (fun s => s.work.length + fed net₀ s.net.front?) _ (fun s h => h.turn hn hS) h ?_
  refine Nat.lt_of_lt_of_le ?_ (Loop.allowance_mono (Nat.le_add_right _ _))
  refine Nat.lt_of_le_of_lt ?_ (Loop.lt_allowance _)
  have hfed := fed_le_capacity net₀ s.net.front?
  have hcap : s.net.capacity = net₀.capacity := h.capacity
  have hext := s.net.capacity_le_extent
  dsimp only [length_cons, length_nil]
  omega

end Fold

end Constants

end GameNet
