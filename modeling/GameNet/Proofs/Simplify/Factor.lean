import GameNet.Proofs.Simplify.Mass
import GameNet.Simplify.Factor

/-!
Factoring: the inputs that all gates feeding a gate share move into a new gate behind it.
-/

namespace GameNet

open List

namespace Op

def IsLattice (op : Op) : Prop := op = .and ∨ op = .or

theorem IsLattice.isGate {op : Op} (h : op.IsLattice) : op.isGate := by
  rcases h with rfl | rfl <;> rfl

def join (op : Op) (a b : Bool) : Bool := if op = .and then a && b else a || b

theorem read_append {op : Op} (h : op.IsLattice) (l l' : List CompId) (v : CompId → Bool) :
    op.read (l ++ l') v = op.join (op.read l v) (op.read l' v) := by
  rcases h with rfl | rfl
  · exact all_append
  · exact any_append

theorem read_const {op : Op} (h : op.IsLattice) {l : List CompId} (hl : l ≠ []) (b : Bool) :
    op.read l (fun _ => b) = b := by
  obtain ⟨a, ha⟩ := exists_mem_of_ne_nil l hl
  rcases h with rfl | rfl
  · rw [Bool.eq_iff_iff, read_and]
    exact ⟨fun h => h a ha, fun h _ _ => h⟩
  rw [Bool.eq_iff_iff, read_or]
  constructor
  · rintro ⟨_, _, h⟩
    exact h
  · exact fun h => ⟨a, ha, h⟩

theorem read_join {x y : Op} (hx : x.IsLattice) (hy : y.IsLattice) {l : List CompId} (hl : l ≠ [])
    (b : Bool) (v : CompId → Bool) : y.read l (fun a => x.join b (v a)) = x.join b (y.read l v) := by
  -- either the shared part decides everything, or it does not matter
  rcases hx with rfl | rfl <;> cases b
  · exact read_const hy hl false
  · rfl
  · rfl
  · exact read_const hy hl true

end Op

namespace Network

section Factorable

variable {net : Network} {c : CompId} {k : Component} {x : Op}

theorem commonInputs_yields {xs : List CompId} (hx : ∀ a ∈ xs, net.contains a) :
    (net.commonInputs xs).Yields fun common => common.Nodup ∧ ∀ i ∈ common, ∀ a ∈ xs, i ∈ net.inputsOf a := by
  cases xs with
  | nil => exact .pure ⟨.nil, fun _ h => by cases h⟩
  | cons a xs =>
    obtain ⟨ka, hka⟩ := contains_iff.mp (hx a mem_cons_self)
    unfold commonInputs
    refine .bind_ok (get_of_get? hka) ?_
    refine (Checked.total.foldlM
      (fun rest common => common.Nodup ∧ (∀ b ∈ rest, b ∈ xs) ∧
        ∀ i ∈ common, ∀ b ∈ a :: xs, b ∉ rest → i ∈ net.inputsOf b)
      (fun b rest common hinv => ?_) xs _ ⟨CompId.nodup_sortedSet _, fun _ h => h, ?_⟩).mono
        fun common h => ⟨h.1, fun i hi b hb => h.2.2 i hi b hb not_mem_nil⟩
    · obtain ⟨hnd, hsub, hin⟩ := hinv
      obtain ⟨kb, hkb⟩ := contains_iff.mp (hx b (mem_cons_of_mem _ (hsub b mem_cons_self)))
      refine Checked.Yields.bind_ok (get_of_get? hkb) (.pure ⟨hnd.filter _, fun d hd =>
        hsub d (mem_cons_of_mem _ hd), fun i hi d hd hnr => ?_⟩)
      obtain ⟨hi, hib⟩ := mem_filter.mp hi
      by_cases hdb : d = b
      · rw [hdb, inputsOf_of_get? hkb]
        simpa using hib
      · exact hin i hi d hd (by simp [hdb, hnr])
    · intro i hi b hb hnb
      rcases mem_cons.mp hb with rfl | hb
      · rw [inputsOf_of_get? hka]
        exact CompId.mem_sortedSet.mp hi
      · exact absurd hb hnb

structure Factorable (net : Network) (x : Op) (c : CompId) (common : List CompId) : Prop where
  two : 2 ≤ (net.inputsOf c).length
  sort : ∀ a ∈ net.inputsOf c, net.op? a = some x
  once : ∀ a ∈ net.inputsOf c, (net.outputsOf a).length = 1
  some : common ≠ []
  nodup : common.Nodup
  shared : ∀ i ∈ common, ∀ a ∈ net.inputsOf c, i ∈ net.inputsOf a
  rest : ∀ a ∈ net.inputsOf c, ∃ i ∈ net.inputsOf a, i ∉ common

theorem Factorable.fed {common : List CompId} (h : Factorable net x c common) : net.inputsOf c ≠ [] :=
  ne_nil_of_length_pos (Nat.zero_lt_of_lt h.two)

theorem factorable?_yields (hb : net.Balanced) (hk : net.get? c = some k) :
    (net.factorable? x c k).Yields fun r => ∀ common, r = some common →
      Factorable net x c common ∧ c ∉ common := by
  have hlive : ∀ a ∈ k.inputs, net.contains a := fun a ha =>
    hb.contains_source (b := c) (by rwa [inputsOf_of_get? hk])
  have skip : (pure none : Checked (Option (List CompId))).Yields fun r =>
      ∀ common, r = some common → Factorable net x c common ∧ c ∉ common := .pure fun _ h => by cases h
  unfold factorable?
  have hplain : (k.inputs.mapM fun i => do
      let ik ← net.get i
      return decide (ik.op = x) && ik.outputs.length == 1 : Checked (List Bool)) =
        .ok (k.inputs.map fun a =>
          decide (net.op? a = some x) && (net.outputsOf a).length == 1) := by
    refine Checked.mapM_yields _ fun a ha => ?_
    obtain ⟨ka, hka⟩ := contains_iff.mp (hlive a ha)
    rw [get_of_get? hka, op?_of_get? hka, outputsOf_of_get? hka]
    simp [pure, Except.pure, bind, Except.bind]
  refine .bind_ok hplain ?_
  split
  · exact skip
  next hcond =>
  simp only [Bool.or_eq_true, decide_eq_true_eq, Bool.not_eq_true', not_or, Nat.not_lt,
    Bool.not_eq_false, all_map, all_eq_true, Function.comp, id, Bool.and_eq_true,
    beq_iff_eq] at hcond
  refine .bind (commonInputs_yields hlive) fun common hr => ?_
  obtain ⟨hnd, hshared⟩ := hr
  split
  · exact skip
  next hne =>
  split
  · exact skip
  next htouch =>
  have hemptied : (k.inputs.anyM fun a => do return (← net.get a).inputs.all common.contains :
      Checked Bool) = .ok (k.inputs.any fun a => (net.inputsOf a).all common.contains) := by
    refine Checked.anyM_yields _ fun a ha => ?_
    obtain ⟨ka, hka⟩ := contains_iff.mp (hlive a ha)
    rw [get_of_get? hka, inputsOf_of_get? hka]
    rfl
  refine .bind_ok hemptied (.pure fun common' hc => ?_)
  split at hc
  · cases hc
  next hem =>
  cases hc
  rw [← inputsOf_of_get? hk] at hcond hshared hem
  refine ⟨⟨hcond.1, fun a ha => (hcond.2 a ha).1, fun a ha => (hcond.2 a ha).2, ?_, hnd, hshared,
    fun a ha => ?_⟩, fun hc => htouch (any_eq_true.mpr ⟨c, hc, by simp⟩)⟩
  · simpa using hne
  simp only [any_eq_true, all_eq_true, contains_iff_mem, not_exists, not_and, not_forall] at hem
  obtain ⟨i, hi, hic⟩ := hem a ha
  exact ⟨i, hi, hic⟩

end Factorable

/-! ## Moving the shared inputs -/

def factored (net : Network) (c : CompId) (common : List CompId) (a b : CompId) : Nat :=
  if a = c then if b = net.capacity then 1 else 0
  else if a = net.capacity then net.edgesIn c b
  else if b = net.capacity then if a ∈ common then 1 else 0
  else net.edgesIn a b - if a ∈ common ∧ b ∈ net.inputsOf c then 1 else 0

structure Factored (x : Op) (c : CompId) (common : List CompId) (net net' : Network) : Prop where
  parts : net'.parts = net.parts
  capacity : net'.capacity = net.capacity + 1
  face : ∀ d, d ≠ net.capacity → net'.face? d = net.face? d
  bare : ∀ d, d ≠ net.capacity → d ≠ c → d ∉ net.inputsOf c → net'.bare? d = net.bare? d
  gate : net'.op? net.capacity = some x
  shaped : ∀ k, net'.get? net.capacity = some k → k.Shaped
  wired : Wired net' (net.factored c common) (net.factored c common)

section Moves

variable {net : Network} {ins outs : CompId → CompId → Nat} (touched : CompId → Prop)

theorem unlinkEach_yields {i : CompId} {as : List CompId} (h : Wired net ins outs) (hi : net.contains i)
    (ha : ∀ a ∈ as, net.contains a) :
    (as.foldlM (fun net a => net.unlink i a) net : Checked Network).Yields fun net' =>
      Rewires touched net net' ∧ Wired net' (fun x y => ins x y - if x = i then as.count y else 0)
        (fun x y => outs x y - if x = i then as.count y else 0) := by
  apply foldlM_rewires touched as
  · exact h.congr (fun x y => by simp) fun x y => by simp
  intro done a net' hmem _ hr hw
  refine (unlink_yields touched hw ((hr.contains i).trans hi) ((hr.contains a).trans (ha a hmem))).mono
    fun net1 h1 => ⟨h1.1, h1.2.congr (fun x y => ?_) fun x y => ?_⟩ <;> grind [arrow]

theorem unlinkAll_yields {is as : List CompId} (h : Wired net ins outs)
    (hi : ∀ i ∈ is, net.contains i) (ha : ∀ a ∈ as, net.contains a) :
    (is.foldlM (fun net i => as.foldlM (fun net a => net.unlink i a) net) net :
      Checked Network).Yields fun net' => Rewires touched net net' ∧
        Wired net' (fun x y => ins x y - is.count x * as.count y)
          (fun x y => outs x y - is.count x * as.count y) := by
  apply foldlM_rewires touched is
  · exact h.congr (fun x y => by simp) fun x y => by simp
  intro done i net1 hmem _ hr hw
  refine (unlinkEach_yields touched hw ((hr.contains i).trans (hi i hmem)) fun a hm =>
    (hr.contains a).trans (ha a hm)).mono fun net2 h2 => ⟨h2.1, h2.2.congr (fun x y => ?_) fun x y => ?_⟩
  all_goals
    rw [count_append, Nat.add_mul, ← Nat.sub_sub, count_singleton]
    grind

theorem linkAll_yields {is : List CompId} {g : CompId} (h : Wired net ins outs)
    (hi : ∀ i ∈ is, net.contains i) (hg : net.contains g) :
    (is.foldlM (fun net i => net.link i g) net : Checked Network).Yields fun net' =>
      Rewires touched net net' ∧ Wired net' (fun x y => ins x y + if y = g then is.count x else 0)
        (fun x y => outs x y + if y = g then is.count x else 0) := by
  apply foldlM_rewires touched is
  · exact h.congr (fun x y => by simp) fun x y => by simp
  intro done i net' hmem _ hr hw
  refine (link_yields touched hw ((hr.contains i).trans (hi i hmem)) ((hr.contains g).trans hg)).mono
    fun net1 h1 => ⟨h1.1, h1.2.congr (fun x y => ?_) fun x y => ?_⟩ <;> grind [arrow]

theorem refreshAll_yields {edges : CompId → CompId → Nat} {as : List CompId}
    (h : Wired net edges edges) (ha : ∀ a ∈ as, net.contains a) (ht : ∀ a ∈ as, touched a) :
    (as.foldlM (fun net a => net.refresh a) net : Checked Network).Yields fun net' =>
      Rewires touched net net' ∧ Wired net' edges edges := by
  apply foldlM_rewires touched as h
  intro _ a net' hmem _ hr hw
  exact (refresh_yields touched hw ((hr.contains a).trans (ha a hmem))
    (fun i hi => hw.balanced.contains_source hi) (ht a hmem)).mono fun net1 h1 => ⟨h1.1, h1.2.1⟩

end Moves

section Factor

variable {net net' : Network} {x y : Op} {c : CompId} {k : Component} {common : List CompId}

theorem edgesIn_capacity (hb : net.Balanced) (a : CompId) :
    net.edgesIn a net.capacity = 0 ∧ net.edgesIn net.capacity a = 0 := by
  have free := get?_capacity net
  constructor
  · rw [edgesIn, inputsOf, free]
    rfl
  · rw [← hb, edgesOut, outputsOf, free]
    rfl

section

variable (h : Factorable net x c common) (hb : net.Balanced)
include h hb

theorem Factorable.edgesIn_eq {a b : CompId}
    (ha : a ∈ net.inputsOf c) : net.edgesIn a b = if b = c then 1 else 0 := by
  have hlen := h.once a ha
  have hm := hb.mem_iff.mpr ha
  obtain ⟨o, ho⟩ := length_eq_one_iff.mp hlen
  rw [ho, mem_singleton] at hm
  rw [← hb, edgesOut, ho, count_singleton, ← hm]
  grind

theorem Factorable.nodup_inputsOf : (net.inputsOf c).Nodup := by
  rw [nodup_iff_count_le_one]
  intro a
  by_cases ha : a ∈ net.inputsOf c
  · exact ((h.edgesIn_eq hb ha).trans (if_pos rfl)).le
  · rw [count_eq_zero_of_not_mem ha]
    exact Nat.zero_le 1

theorem Factorable.apart (ha : net.Acyclic) : c ∉ common ∧ ∀ i ∈ common, i ∉ net.inputsOf c := by
  obtain ⟨a, hac⟩ := exists_mem_of_ne_nil _ h.fed
  constructor
  · intro hc
    exact ha c (.tail (.single (h.shared c hc a hac)) hac)
  intro i hi hic
  have h1 := edgesIn_pos.mpr (h.shared i hi a hac)
  rw [h.edgesIn_eq hb hic] at h1
  have hac' : a = c := by grind
  subst hac'
  have := ha.irrefl a
  rw [← edgesIn_pos] at hac
  omega

end

theorem factorOut_yields {kind : Kind} (hb : net.Balanced) (hcc : c ∉ common)
    (hk : net.get? c = some k) (hf : Factorable net x c common) (hkind : kind.op = x) :
    (net.factorOut kind c k common).Yields (Factored x c common net) := by
  have hxs : net.inputsOf c = k.inputs := inputsOf_of_get? hk
  have hout : ∀ b, k.outputs.count b = net.edgesIn c b := by
    intro b; rw [← hb c b, edgesOut, outputsOf_of_get? hk]
  have hlive : ∀ a ∈ k.inputs, net.contains a := fun a h =>
    hb.contains_source (b := c) (by rwa [hxs])
  have hclive : ∀ i ∈ common, net.contains i := by
    intro i hi
    obtain ⟨a, hac⟩ := exists_mem_of_ne_nil _ hf.fed
    exact hb.contains_source (hf.shared i hi a hac)
  have hcg := ne_capacity_of_contains (contains_of_get? hk)
  -- components touched: those that feed `c`, and `c` itself
  let touched : CompId → Prop := fun d => d = c ∨ d ∈ net.inputsOf c
  unfold factorOut
  refine .bind (unlinkAll_yields touched hb.wired hclive hlive) fun net1 h1 => ?_
  obtain ⟨hr1, hw1⟩ := h1
  have hc1 := (hr1.contains c).trans (contains_of_get? hk)
  refine .bind_ok (update_of_contains hc1 _) ?_
  have hr2 := hr1.trans (rewires_modify (f := fun k => { k with outputs := [] }) touched net1 c)
  have hw2 : Wired (net1.modify c fun k => { k with outputs := [] })
      (fun a b => net.edgesIn a b - common.count a * k.inputs.count b)
      (fun a b => if a = c then 0 else net.edgesIn a b - common.count a * k.inputs.count b) :=
    hw1.modify_outputs hc1 (fun _ => []) (fun b => by simp) fun a b hac => by rw [if_neg hac]
  generalize net1.modify c _ = net2 at hr2 hw2
  -- the new gate
  obtain ⟨net3, hadd, hnew⟩ := add_eq net2 kind unset
  rw [hadd, hr2.capacity]
  have hw3 := hnew.wired hw2
  have hlive3 : ∀ d, net.contains d → net3.contains d = true := fun d hd =>
    hnew.contains_old ((hr2.contains d).trans hd)
  have hg3 : net3.contains net.capacity = true := hr2.capacity ▸ hnew.contains_new
  let touched' : CompId → Prop := fun d => touched d ∨ d = net.capacity
  refine .bind (linkAll_yields touched' hw3 (fun i hi => hlive3 i (hclive i hi)) hg3) fun net4 h4 => ?_
  obtain ⟨hr4, hw4⟩ := h4
  have hc4 := (hr4.contains c).trans (hlive3 c (contains_of_get? hk))
  refine .bind (link_yields touched' hw4 hc4 ((hr4.contains _).trans hg3)) fun net5 h5 => ?_
  obtain ⟨hr5, hw5⟩ := h5
  have hr45 := hr4.trans hr5
  refine .bind (handOver_yields touched' hw5 ((hr45.contains _).trans hg3) (Ne.symm hcg)
    (fun o ho => ?_) fun b => ?_) fun net6 h6 => ?_
  · refine (hr45.contains o).trans (hlive3 o (hb.contains_target (a := c) ?_))
    rwa [outputsOf_of_get? hk]
  · rw [hout, count_eq_zero_of_not_mem hcc]
    omega
  obtain ⟨hr6, hw6⟩ := h6
  have hr36 := hr45.trans hr6
  have hw : Wired net6 (net.factored c common) (net.factored c common) := by
    have hgc : net.capacity ∉ common := fun h => ne_capacity_of_contains (hclive _ h) rfl
    have hgx : net.capacity ∉ net.inputsOf c := fun h =>
      ne_capacity_of_contains (hb.contains_source h) rfl
    refine hw6.congr (fun a b => ?_) fun a b => ?_
    all_goals
      have h1 := edgesIn_capacity hb a
      have h2 := edgesIn_capacity hb b
      rw [hout, ← hxs, (hf.nodup_inputsOf hb).count, hf.nodup.count]
      grind [factored, arrow]
  refine .bind (refreshAll_yields touched' hw (fun a h => (hr36.contains a).trans (hlive3 a (hlive a h)))
    fun a h => .inl (.inr (by rwa [hxs]))) fun net7 h7 => ?_
  obtain ⟨hr7, hw7⟩ := h7
  have hr37 := hr36.trans hr7
  refine .bind (refresh_yields touched' hw7 ((hr37.contains c).trans (hlive3 c (contains_of_get? hk)))
    (fun i hi => hw7.balanced.contains_source hi) (.inl (.inl rfl))) fun net8 h8 => ?_
  obtain ⟨hr8, hw8, _⟩ := h8
  have hr38 := hr37.trans hr8
  refine (refresh_yields touched' hw8 ((hr38.contains _).trans hg3)
    (fun i hi => hw8.balanced.contains_source hi) (.inr rfl)).mono fun net9 h9 => ?_
  obtain ⟨hr9, hw9, _⟩ := h9
  have hr39 := hr38.trans hr9
  refine ⟨?_, ?_, fun d hd => ?_, fun d hd hdc hdi => ?_, ?_, fun k hk => ?_, hw9⟩
  · rw [hr39.parts, hnew.parts, hr2.parts]
  · rw [hr39.capacity, hnew.capacity, hr2.capacity]
  · rw [hr39.face, hnew.face? (hr2.capacity ▸ hd), hr2.face]
  · have ht : ¬ touched d := fun h => h.elim hdc hdi
    rw [hr39.bare d fun h => h.elim ht hd, hnew.bare? (hr2.capacity ▸ hd), hr2.bare d ht]
  · rw [hr39.op?, ← hr2.capacity, hnew.op?, hkind]
  · obtain ⟨k', hk', hf⟩ := exists_of_face? (hr39.face _).symm hk
    rw [← hr2.capacity, hnew.get?, if_pos rfl, Option.some.injEq] at hk'
    exact (Component.shaped_new _ _).of_face (hf.symm.trans (congrArg Component.face hk'.symm))

structure Placed (net : Network) (c : CompId) (common : List CompId) : Prop where
  balanced : net.Balanced
  gate_ne : c ≠ net.capacity
  self : c ∉ net.inputsOf c
  shared : ∀ i ∈ common, i ≠ c ∧ i ≠ net.capacity ∧ i ∉ net.inputsOf c
  only : ∀ a ∈ net.inputsOf c, ∀ b, a ∈ net.inputsOf b → b = c
  back : ∀ a ∈ net.inputsOf c, c ∉ net.inputsOf a
  live : ∀ a b, a ∈ net.inputsOf b → a ≠ net.capacity ∧ b ≠ net.capacity

theorem Factorable.placed (h : Factorable net x c common) (hb : net.Balanced) (ha : net.Acyclic) :
    Placed net c common := by
  have hg : ∀ a b, a ∈ net.inputsOf b → a ≠ net.capacity ∧ b ≠ net.capacity := by
    intro a b hab
    rw [← edgesIn_pos] at hab
    constructor
    · rintro rfl
      rw [(edgesIn_capacity hb b).2] at hab
      omega
    · rintro rfl
      rw [(edgesIn_capacity hb a).1] at hab
      omega
  obtain ⟨a, hac⟩ := exists_mem_of_ne_nil _ h.fed
  obtain ⟨hcc, hci⟩ := h.apart hb ha
  refine ⟨hb, (hg a c hac).2, fun hc => ha c (.single hc), fun i hi => ⟨?_, ?_, hci i hi⟩,
    fun d hd b hdb => ?_, fun d hd hcd => ha c (.tail (.single hcd) hd), hg⟩
  · rintro rfl
    exact hcc hi
  · exact (hg i a (h.shared i hi a hac)).1
  · have := edgesIn_pos.mpr hdb
    rw [h.edgesIn_eq hb hd] at this
    grind

theorem Factored.mem_inputsOf (h : Factored x c common net net') (hp : Placed net c common)
    {a b : CompId} : a ∈ net'.inputsOf b ↔ if b = net.capacity then a = c ∨ a ∈ common
      else if a = net.capacity then c ∈ net.inputsOf b
      else a ≠ c ∧ if b ∈ net.inputsOf c then 0 < net.factored c common a b else a ∈ net.inputsOf b := by
  rw [h.wired.mem_inputsOf]
  have h1 := edgesIn_capacity hp.balanced a
  have h2 := edgesIn_capacity hp.balanced b
  have h3 := hp.gate_ne
  have h4 := hp.shared a
  have h5 := edgesIn_capacity hp.balanced c
  have h6 : 0 < net.edgesIn b c ↔ b ∈ net.inputsOf c := edgesIn_pos
  have h7 : 0 < net.edgesIn a b ↔ a ∈ net.inputsOf b := edgesIn_pos
  have h8 : 0 < net.edgesIn c b ↔ c ∈ net.inputsOf b := edgesIn_pos
  grind [factored]

theorem Factored.perm_inputsOf (h : Factored x c common net net') (hp : Placed net c common)
    (hf : Factorable net x c common) {a : CompId} (ha : a ∈ net.inputsOf c) :
    (net.inputsOf a).Perm (common ++ net'.inputsOf a) := by
  rw [perm_iff_count]
  intro i
  rw [count_append]
  change net.edgesIn i a = common.count i + net'.edgesIn i a
  rw [h.wired.ins, hf.nodup.count]
  have hpos : i ∈ common → 0 < net.edgesIn i a := fun hi => edgesIn_pos.mpr (hf.shared i hi a ha)
  have h1 := edgesIn_capacity hp.balanced i
  have h2 := (hp.live a c ha).1
  have h3 : net.edgesIn c a = 0 := Nat.eq_zero_of_not_pos fun h => hp.back a ha (edgesIn_pos.mp h)
  have h4 := hp.shared i
  have h5 := (edgesIn_capacity hp.balanced a).2
  grind [factored]

/-! ## What a factored network computes -/

def partValue (net net' : Network) (x : Op) (c : CompId) (v : CompId → Bool) (a : CompId) : Bool :=
  if a ∈ net.inputsOf c then x.read (net'.inputsOf a) v else v a

def factoredValue (net net' : Network) (x y : Op) (c : CompId) (v : CompId → Bool)
    (d : CompId) : Bool :=
  if d = net.capacity then v c
  else if d = c then y.read (net.inputsOf c) (net.partValue net' x c v)
  else net.partValue net' x c v d

theorem factoredValue_of_other {v : CompId → Bool} {d : CompId} (hg : d ≠ net.capacity)
    (hc : d ≠ c) (hi : d ∉ net.inputsOf c) : net.factoredValue net' x y c v d = v d := by
  rw [factoredValue, if_neg hg, if_neg hc, partValue, if_neg hi]

theorem factoredValue_of_input {v : CompId → Bool} (hp : Placed net c common) {a : CompId}
    (ha : a ∈ net.inputsOf c) : net.factoredValue net' x y c v a = net.partValue net' x c v a := by
  rw [factoredValue, if_neg (hp.live a c ha).1, if_neg]
  rintro rfl
  exact hp.self ha

section

variable (h : Factored x c common net net')
include h

section

variable (hp : Placed net c common) {v : CompId → Bool} {b : CompId}
include hp

/-- The new gate puts together what the old ones have in common and what they have not. -/
theorem Factored.read_gate (hf : Factorable net x c common) (hx : x.IsLattice) (hy : y.IsLattice)
    (hc : net.op? c = some y) (hv : net.Obeys v) :
    v c = x.read (net'.inputsOf net.capacity) (net.factoredValue net' x y c v) := by
  have hread : x.read (net'.inputsOf net.capacity) (net.factoredValue net' x y c v) =
      x.read (common ++ [c]) (net.factoredValue net' x y c v) := by
    refine x.read_of_mem_iff _ fun a => ?_
    rw [h.mem_inputsOf hp, if_pos rfl, mem_append, mem_singleton, or_comm]
  have hcommon : x.read common (net.factoredValue net' x y c v) = x.read common v := by
    refine x.read_of_forall_eq fun i hi => ?_
    obtain ⟨h1, h2, h3⟩ := hp.shared i hi
    exact factoredValue_of_other h2 h1 h3
  have hone : x.read [c] (net.factoredValue net' x y c v) =
      y.read (net.inputsOf c) (net.partValue net' x c v) := by
    rw [x.read_singleton (by rcases hx with rfl | rfl <;> decide), factoredValue,
      if_neg hp.gate_ne, if_pos rfl]
  rw [hread, Op.read_append hx, hcommon, hone, hv c y hc hf.fed, ← Op.read_join hx hy hf.fed]
  refine y.read_of_forall_eq fun a ha => ?_
  have hia : net.inputsOf a ≠ [] := by
    obtain ⟨i, hi, -⟩ := hf.rest a ha
    exact ne_nil_of_mem hi
  rw [hv a x (hf.sort a ha) hia, partValue, if_pos ha, ← Op.read_append hx]
  exact x.read_of_mem_iff v fun i => (h.perm_inputsOf hp hf ha).mem_iff

theorem Factored.read_factored (hbg : c ≠ net.capacity) :
    y.read (net.inputsOf c) (net.partValue net' x c v) =
      y.read (net'.inputsOf c) (net.factoredValue net' x y c v) := by
  have hmem : ∀ a, a ∈ net.inputsOf c ↔ a ∈ net'.inputsOf c := by
    intro a
    rw [h.mem_inputsOf hp, if_neg hbg, if_neg hp.self]
    have h1 := hp.self
    have h2 := hp.live a c
    grind
  rw [← y.read_of_mem_iff _ hmem]
  exact y.read_of_forall_eq fun a ha => (factoredValue_of_input hp ha).symm

theorem Factored.read_part (hbg : b ≠ net.capacity) (hbc : b ≠ c) (hbi : b ∈ net.inputsOf c) :
    x.read (net'.inputsOf b) v = x.read (net'.inputsOf b) (net.factoredValue net' x y c v) := by
  refine x.read_of_forall_eq fun a hab => (factoredValue_of_other ?_ ?_ ?_).symm
  all_goals
    have hm := (h.mem_inputsOf hp).mp hab
    rw [if_neg hbg] at hm
  · rintro rfl
    rw [if_pos rfl] at hm
    exact hp.back b hbi hm
  · have := hp.back b hbi
    grind
  · intro hac
    have hpos : 0 < net.factored c common a b := h.wired.mem_inputsOf.mp hab
    have h1 := hp.live a c hac
    have h2 : net.edgesIn a b = 0 := Nat.eq_zero_of_not_pos fun hp' =>
      hbc (hp.only a hac b (edgesIn_pos.mp hp'))
    grind [factored]

/-- Elsewhere, the new gate stands where `c` has stood. -/
theorem Factored.read_other (hbg : b ≠ net.capacity) (hbc : b ≠ c) (hbi : b ∉ net.inputsOf c) (op : Op) :
    op.read (net.inputsOf b) v = op.read (net'.inputsOf b) (net.factoredValue net' x y c v) := by
  have hother : ∀ a ∈ net.inputsOf b, a ≠ c → net.factoredValue net' x y c v a = v a :=
    fun a hab hac => factoredValue_of_other (hp.live a b hab).1 hac
      fun ha => hbc (hp.only a ha b hab)
  refine op.read_congr fun t => ⟨?_, ?_⟩
  · rintro ⟨a, hab, rfl⟩
    by_cases hac : a = c
    · subst hac
      refine ⟨net.capacity, (h.mem_inputsOf hp).mpr ?_, if_pos rfl⟩
      rw [if_neg hbg, if_pos rfl]
      exact hab
    · refine ⟨a, (h.mem_inputsOf hp).mpr ?_, hother a hab hac⟩
      rw [if_neg hbg, if_neg (hp.live a b hab).1, if_neg hbi]
      exact ⟨hac, hab⟩
  · rintro ⟨a, hab, rfl⟩
    have hm := (h.mem_inputsOf hp).mp hab
    rw [if_neg hbg, if_neg hbi] at hm
    split at hm
    · next hag => exact ⟨c, hm, by rw [hag, factoredValue, if_pos rfl]⟩
    · exact ⟨a, hm.2, (hother a hm.2 hm.1).symm⟩

theorem Factored.obeys (hf : Factorable net x c common) (hx : x.IsLattice) (hy : y.IsLattice)
    (hc : net.op? c = some y) (hv : net.Obeys v) : net'.Obeys (net.factoredValue net' x y c v) := by
  intro b op hop hi
  by_cases hbg : b = net.capacity
  · subst hbg
    rw [h.gate] at hop
    cases hop
    rw [factoredValue, if_pos rfl]
    exact h.read_gate hp hf hx hy hc hv
  have hop0 : net.op? b = some op := by rw [← op?_of_face? (h.face b hbg)]; exact hop
  by_cases hbc : b = c
  · subst hbc
    rw [hc] at hop0
    cases hop0
    rw [factoredValue, if_neg hbg, if_pos rfl]
    exact h.read_factored hp hbg
  by_cases hbi : b ∈ net.inputsOf c
  · rw [hf.sort b hbi] at hop0
    cases hop0
    rw [factoredValue_of_input hp hbi, partValue, if_pos hbi]
    exact h.read_part hp hbg hbc hbi
  rw [factoredValue_of_other hbg hbc hbi]
  have hi0 : net.inputsOf b ≠ [] := by
    obtain ⟨a, hab⟩ := exists_mem_of_ne_nil _ hi
    have hm := (h.mem_inputsOf hp).mp hab
    rw [if_neg hbg, if_neg hbi] at hm
    split at hm
    · exact ne_nil_of_mem hm
    · exact ne_nil_of_mem hm.2
  rw [hv b op hop0 hi0]
  exact h.read_other hp hbg hbc hbi op

end

theorem Factored.contains {d : CompId}
    (hd : d ≠ net.capacity) : net'.contains d = net.contains d := contains_of_face? (h.face d hd)

section

variable (hp : Placed net c common) (hf : Factorable net x c common)
include hp hf

theorem Factored.fed_iff {b : CompId}
    (hb : b ≠ net.capacity) : net'.inputsOf b = [] ↔ net.inputsOf b = [] := by
  rw [eq_nil_iff_forall_not_mem, eq_nil_iff_forall_not_mem]
  constructor
  · intro hn a hab
    by_cases hbi : b ∈ net.inputsOf c
    · obtain ⟨i, hi, hic⟩ := hf.rest b hbi
      have hperm := (h.perm_inputsOf hp hf hbi).mem_iff.mp hi
      rcases mem_append.mp hperm with hm | hm
      · exact hic hm
      · exact hn i hm
    by_cases hac : a = c
    · refine hn net.capacity ((h.mem_inputsOf hp).mpr ?_)
      rw [if_neg hb, if_pos rfl]
      exact hac ▸ hab
    · refine hn a ((h.mem_inputsOf hp).mpr ?_)
      rw [if_neg hb, if_neg (hp.live a b hab).1, if_neg hbi]
      exact ⟨hac, hab⟩
  · intro hn a hab
    have hm := (h.mem_inputsOf hp).mp hab
    rw [if_neg hb] at hm
    split at hm
    · exact hn c hm
    split at hm
    · next hbi =>
      obtain ⟨i, hi, -⟩ := hf.rest b hbi
      exact hn i hi
    · exact hn a hm.2

/-- Ranks are spread out, and the new gate goes in between. -/
theorem Factored.acyclic (ha : net.Acyclic) : net'.Acyclic := by
  obtain ⟨rank, hrank, -⟩ := ha.exists_rank hp.balanced
  have hspread : net'.Ranked fun d =>
      if d = net.capacity then 2 * rank c + 1 else 2 * rank d := by
    intro a b hab
    obtain ⟨i, hic⟩ := exists_mem_of_ne_nil _ hf.fed
    have hshared : a ∈ common → rank a < rank c := fun hac =>
      (hrank a i (hf.shared a hac i hic)).trans (hrank i c hic)
    have hm := (h.mem_inputsOf hp).mp hab
    have h1 := hp.gate_ne
    have h2 := hrank a b
    have h3 := hrank c b
    have h4 := hp.shared a
    have h5 : 0 < net.factored c common a b → a ≠ c → a ≠ net.capacity → b ≠ net.capacity →
        a ∈ net.inputsOf b := by
      intro hpos
      rw [← edgesIn_pos]
      grind [factored]
    grind
  exact hspread.acyclic

theorem Factored.sound {keep : List CompId} (hx : x.IsLattice)
    (hy : y.IsLattice) (hc : net.op? c = some y) (ha : net.Acyclic) : Sound (· ∈ keep) net net' := by
  have hold : ∀ d, net.contains d → d ≠ net.capacity := fun d => ne_capacity_of_contains
  refine
    { parts := h.parts, capacity := by rw [h.capacity]; exact Nat.le_succ _
      face := fun d hd _ => h.face d (hold d hd), fresh := fun d hd' hd => ?_
      leaf := fun d hd _ hi => ⟨(h.fed_iff hp hf (hold d hd)).mpr hi, .inl (h.bare d (hold d hd) ?_ ?_)⟩
      fed := fun d hd' hi => ?_, narrow := fun b op hop hand hor hl => ?_
      unread := fun d hun => eq_nil_iff_forall_not_mem.mpr fun b hdb => ?_
      values := fun v hv => ⟨_, h.obeys hp hf hx hy hc hv, fun d hd _ => ?_⟩
      balanced := h.wired.balanced, acyclic := h.acyclic hp hf ha
      keeps := fun d _ hd => (h.contains (hold d hd)).trans hd }
  · have hdg : d = net.capacity := by
      by_contra hne
      rw [h.contains hne, hd] at hd'
      cases hd'
    subst hdg
    refine ⟨Nat.le_refl _, ?_, ne_nil_of_mem (a := c) ((h.mem_inputsOf hp).mpr ?_), h.shaped⟩
    · rw [h.gate]
      rcases hx with rfl | rfl
      · exact .inl rfl
      · exact .inr rfl
    · rw [if_pos rfl]
      exact .inl rfl
  · rintro rfl
    exact hf.fed hi
  · intro hdi
    obtain ⟨i, hi', -⟩ := hf.rest d hdi
    rw [hi] at hi'
    cases hi'
  · by_cases hdg : d = net.capacity
    · subst hdg
      rw [inputsOf, get?_capacity] at hi
      exact absurd rfl hi
    · exact fun hn => hi ((h.fed_iff hp hf hdg).mp hn)
  · -- a component with one input has it still, or the new gate in place of `c`
    have hbg := hold b (contains_of_op? hop)
    have hbc : b ≠ c := by
      rintro rfl
      rw [hc] at hop
      cases hop
      rcases hy with rfl | rfl <;> contradiction
    have hbi : b ∉ net.inputsOf c := by
      intro hbi
      rw [hf.sort b hbi] at hop
      cases hop
      rcases hx with rfl | rfl <;> contradiction
    rw [length_inputsOf_le_one h.wired]
    rw [length_inputsOf_le_one hp.balanced.wired] at hl
    intro a a' hpos hpos'
    have h1 := hl a a'
    have h2 := hl a c
    have h3 := hl c a'
    have h4 := hl c c
    have h5 := (edgesIn_capacity hp.balanced b).2
    grind [factored]
  · -- the new gate reads `c` and what the inputs of `c` have read before
    have hpos := h.wired.mem_outputsOf.mp hdb
    obtain ⟨a, hac⟩ := exists_mem_of_ne_nil _ hf.fed
    have hdc : d ≠ c := fun hdc => not_unread_of_isGate hc hy.isGate hf.fed (hdc ▸ hun)
    have hdg := hold d hun.1.contains
    have hshared : d ∉ common := fun hd =>
      not_unread_of_mem hp.balanced (hf.shared d hd a hac) hun
    have h0 := hun.edgesIn hp.balanced b
    grind [factored]
  · have hdg := hold d hd.contains
    have hd2 : d ≠ c ∧ d ∉ net.inputsOf c := by
      rcases hd with ⟨op, hop, hng⟩ | ⟨-, hi⟩
      · constructor
        · rintro rfl
          rw [hc] at hop
          cases hop
          rw [hy.isGate] at hng
          cases hng
        · intro hdi
          rw [hf.sort d hdi] at hop
          cases hop
          rw [hx.isGate] at hng
          cases hng
      · constructor
        · rintro rfl
          exact hf.fed hi
        · intro hdi
          obtain ⟨i, hi', -⟩ := hf.rest d hdi
          rw [hi] at hi'
          cases hi'
    exact factoredValue_of_other hdg hd2.1 hd2.2

end

end

/-! ## Routes in a factored network -/

def partRoutes (net net' : Network) (a : CompId) : Nat := tally net.routes (net'.inputsOf a)

def factoredRoutes (net net' : Network) (c : CompId) (common : List CompId) (d : CompId) : Nat :=
  if d = net.capacity then
    tally net.routes common + tally (net.partRoutes net') (net.inputsOf c)
  else if d = c then tally (net.partRoutes net') (net.inputsOf c)
  else if d ∈ net.inputsOf c then net.partRoutes net' d
  else net.routes d

section

variable (h : Factored x c common net net') (hp : Placed net c common)
include h hp

theorem Factored.routes_eq (hf : Factorable net x c common) (ha : net.Acyclic) :
    net.routes c = (net.inputsOf c).length * tally net.routes common +
      tally (net.partRoutes net') (net.inputsOf c) := by
  rw [routes_of_fed hp.balanced ha hf.fed, ← tally_const_add]
  refine tally_congr fun a hac => ?_
  obtain ⟨i, hi, -⟩ := hf.rest a hac
  rw [routes_of_fed hp.balanced ha (ne_nil_of_mem hi), tally_perm (h.perm_inputsOf hp hf hac),
    tally_append, partRoutes]

theorem Factored.routes_gate_lt (hf : Factorable net x c common) (ha : net.Acyclic) :
    net.factoredRoutes net' c common net.capacity < net.routes c := by
  rw [h.routes_eq hp hf ha, factoredRoutes, if_pos rfl]
  obtain ⟨i, hi⟩ := exists_mem_of_ne_nil _ hf.some
  have hpos : 1 ≤ tally net.routes common := (routes_pos hp.balanced ha i).trans (le_tally hi)
  have := Nat.mul_le_mul_right (tally net.routes common) hf.two
  omega

theorem Factored.perm_inputsOf_other {b : CompId} (hb : b ≠ net.capacity) (hbi : b ∉ net.inputsOf c) :
    (net'.inputsOf b).Perm ((net.inputsOf b).map fun a => if a = c then net.capacity else a) := by
  rw [perm_iff_count]
  intro a
  have hcount : ∀ l : List CompId, (∀ d ∈ l, d ≠ net.capacity) →
      (l.map fun d => if d = c then net.capacity else d).count a =
        if a = net.capacity then l.count c else if a = c then 0 else l.count a := by
    intro l hl
    induction l with
    | nil => simp
    | cons d l ih =>
      have hd := hl d mem_cons_self
      rw [map_cons, count_cons, ih (forall_mem_cons.mp hl).2, count_cons, count_cons]
      have := hp.gate_ne
      grind
  rw [hcount _ fun d hd => (hp.live d b hd).1]
  change net'.edgesIn a b = if a = net.capacity then net.edgesIn c b
    else if a = c then 0 else net.edgesIn a b
  rw [h.wired.ins]
  have := hp.gate_ne
  grind [factored]

theorem Factored.tally_other_le (hf : Factorable net x c common) (ha : net.Acyclic) {b : CompId}
    (hb : b ≠ net.capacity) (hbc : b ≠ c) (hbi : b ∉ net.inputsOf c) :
    tally (net.factoredRoutes net' c common) (net'.inputsOf b) ≤ net.routes b ∧ (c ∈ net.inputsOf b →
        tally (net.factoredRoutes net' c common) (net'.inputsOf b) < net.routes b) := by
  have hgate := h.routes_gate_lt hp hf ha
  have hle : ∀ a ∈ net.inputsOf b,
      net.factoredRoutes net' c common (if a = c then net.capacity else a) ≤ net.routes a := by
    intro a hab
    split
    · next hac => rw [hac]; exact hgate.le
    · next hac =>
      rw [factoredRoutes, if_neg (hp.live a b hab).1, if_neg hac, if_neg fun hi => hbc (hp.only a hi b hab)]
  rw [tally_perm (h.perm_inputsOf_other hp hb hbi), tally_map]
  have hr := tally_routes_le hp.balanced ha b
  refine ⟨(tally_mono hle).trans hr, fun hcb => ?_⟩
  refine (tally_lt_of_mem hle hcb ?_).trans_le hr
  rw [if_pos rfl]
  exact hgate

theorem Factored.majorizes (hf : Factorable net x c common) (ha : net.Acyclic) :
    net'.Majorizes (net.factoredRoutes net' c common) := by
  have hpart : ∀ a ∈ net.inputsOf c, 1 ≤ net.partRoutes net' a := by
    intro a hac
    obtain ⟨i, hi, hic⟩ := hf.rest a hac
    have hm := (mem_append.mp ((h.perm_inputsOf hp hf hac).mem_iff.mp hi)).resolve_left hic
    exact (routes_pos hp.balanced ha i).trans (le_tally hm)
  have hparts : 1 ≤ tally (net.partRoutes net') (net.inputsOf c) := by
    obtain ⟨a, hac⟩ := exists_mem_of_ne_nil _ hf.fed
    exact (hpart a hac).trans (le_tally hac)
  have hpartEq : ∀ a ∈ net.inputsOf c, net.factoredRoutes net' c common a = net.partRoutes net' a := by
    intro a hac
    rw [factoredRoutes, if_neg (hp.live a c hac).1, if_neg, if_pos hac]
    rintro rfl
    exact hp.self hac
  intro d hd
  by_cases hdg : d = net.capacity
  · subst hdg
    have hperm : (net'.inputsOf net.capacity).Perm (common ++ [c]) := by
      rw [perm_iff_count]
      intro a
      change net'.edgesIn a net.capacity = _
      have h1 := (edgesIn_capacity hp.balanced c).1
      have h2 := hp.shared a
      have h3 := hp.gate_ne
      rw [h.wired.ins, count_append, hf.nodup.count, count_singleton]
      grind [factored]
    have hshared : tally (net.factoredRoutes net' c common) common = tally net.routes common := by
      refine tally_congr fun i hi => ?_
      obtain ⟨h1, h2, h3⟩ := hp.shared i hi
      rw [factoredRoutes, if_neg h2, if_neg h1, if_neg h3]
    have hc : net.factoredRoutes net' c common c = tally (net.partRoutes net') (net.inputsOf c) := by
      rw [factoredRoutes, if_neg hp.gate_ne, if_pos rfl]
    rw [tally_perm hperm, tally_append, hshared, tally_cons, tally_nil, hc, factoredRoutes, if_pos rfl]
    omega
  · by_cases hdc : d = c
    · subst hdc
      have hmap : ((net.inputsOf d).map fun a => if a = d then net.capacity else a) = net.inputsOf d := by
        have hne : ∀ a ∈ net.inputsOf d, (if a = d then net.capacity else a) = id a :=
          fun a had => if_neg fun hac : a = d => hp.self (hac ▸ had)
        rw [map_congr_left hne, map_id]
      rw [tally_perm (h.perm_inputsOf_other hp hdg hp.self), hmap, tally_congr hpartEq, factoredRoutes,
        if_neg hdg, if_pos rfl]
      exact ⟨hparts, Nat.le_refl _⟩
    · by_cases hdi : d ∈ net.inputsOf c
      · rw [hpartEq d hdi]
        refine ⟨hpart d hdi, tally_mono fun a had => ?_⟩
        have hm := (mem_append (s := common)).mpr (.inr had)
        have hmem := (h.perm_inputsOf hp hf hdi).mem_iff.mpr hm
        rw [factoredRoutes, if_neg (hp.live a d hmem).1, if_neg, if_neg]
        · exact fun hac => hdc (hp.only a hac d hmem)
        · rintro rfl
          exact hp.back d hdi hmem
      · rw [factoredRoutes, if_neg hdg, if_neg hdc, if_neg hdi]
        exact ⟨routes_pos hp.balanced ha d, (h.tally_other_le hp hf ha hdg hdc hdi).1⟩

theorem Factored.trim {keep : List CompId} (hc : net.contains c) (hck : c ∉ keep) (ht : Trim keep net) :
    Trim keep net' := by
  intro a hal ho
  have hno : ∀ b, a ∉ net'.inputsOf b := fun b hab =>
    not_mem_nil (ho ▸ h.wired.balanced.mem_iff.mpr hab)
  have hout : ∀ d, net.contains d → d ∉ keep → ∃ o, d ∈ net.inputsOf o := by
    intro d hd hdk
    obtain ⟨o, hdo⟩ := exists_mem_of_ne_nil _ fun hn => hdk (ht d hd hn)
    exact ⟨o, hp.balanced.mem_iff.mp hdo⟩
  by_cases hag : a = net.capacity
  · obtain ⟨o, hco⟩ := hout c hc hck
    refine absurd ((h.mem_inputsOf hp).mpr ?_) (hno o)
    rw [if_neg (hp.live c o hco).2, if_pos hag]
    exact hco
  by_contra hak
  obtain ⟨o, hao⟩ := hout a ((h.contains hag).symm.trans hal) hak
  by_cases hacm : a = c ∨ a ∈ common
  · refine hno net.capacity ((h.mem_inputsOf hp).mpr ?_)
    rw [if_pos rfl]
    exact hacm
  rw [not_or] at hacm
  refine hno o ((h.mem_inputsOf hp).mpr ?_)
  rw [if_neg (hp.live a o hao).2, if_neg hag]
  refine ⟨hacm.1, ?_⟩
  split
  · have := edgesIn_pos.mpr hao
    have := hp.live a o hao
    grind [factored]
  · exact hao

theorem Factored.progress {keep : List CompId} (hf : Factorable net x c common) (hx : x.IsLattice)
    (hy : y.IsLattice) (hc : net.op? c = some y) (ha : net.Acyclic) (hs : Solid keep net)
    (ht : Trim keep net) : Progress keep 1 net net' := by
  have hsound : Sound (· ∈ keep) net net' := h.sound hp hf hx hy hc ha
  have hck := hs.not_mem hc hy.isGate
  have hN := h.majorizes hp hf ha
  have hd : ∀ d ∈ keep, net.factoredRoutes net' c common d ≤ net.routes d := by
    intro d hdk
    rw [factoredRoutes, if_neg (ne_capacity_of_contains (hs.contains hdk)), if_neg, if_neg]
    · exact fun hdi => hs.not_mem (hf.sort d hdi) hx.isGate hdk
    · rintro rfl
      exact hck hdk
  -- routes to an output of `c` become fewer
  obtain ⟨o, hco⟩ := exists_mem_of_ne_nil _ fun hn => hck (ht c (contains_of_op? hc) hn)
  have hco' : c ∈ net.inputsOf o := hp.balanced.mem_iff.mp hco
  have hog := (hp.live c o hco').2
  have hoc : o ≠ c := by
    rintro rfl
    exact hp.self hco'
  have hoi : o ∉ net.inputsOf c := fun hoi => hp.back o hoi hco'
  have hlive : net'.contains o := (h.contains hog).trans (contains_of_mem_inputsOf hco')
  have hlt : net'.routes o < net.factoredRoutes net' c common o := by
    have hne : net'.inputsOf o ≠ [] := fun hn =>
      ne_nil_of_mem hco' ((h.fed_iff hp hf hog).mp hn)
    rw [routes_of_fed hsound.balanced hsound.acyclic hne]
    calc tally net'.routes (net'.inputsOf o)
        ≤ tally (net.factoredRoutes net' c common) (net'.inputsOf o) := tally_mono fun a hao =>
          hN.routes_le hsound.balanced hsound.acyclic a (hsound.balanced.contains_source hao)
      _ < net.routes o := (h.tally_other_le hp hf ha hog hoc hoi).2 hco'
      _ = net.factoredRoutes net' c common o := by
          rw [factoredRoutes, if_neg hog, if_neg hoc, if_neg hoi]
  have htally := hsound.tally_routes_lt (fun d hdk => hs.contains hdk) hN hd
    (h.trim hp (contains_of_op? hc) hck ht) hlive hlt
  have hcard : net'.live.card ≤ net.live.card + 1 := by
    have hsub : net'.live ⊆ insert net.capacity net.live := by
      intro d hdl
      rw [mem_live] at hdl
      rw [Finset.mem_insert, mem_live]
      by_cases hdg : d = net.capacity
      · exact .inl hdg
      · exact .inr ((h.contains hdg).symm.trans hdl)
    exact (Finset.card_le_card hsub).trans (Finset.card_insert_le _ _)
  have hmass : net'.mass keep < net.mass keep := by
    rw [mass, mass]
    omega
  exact { hsound with mass_le := hmass.le, mass_lt := fun _ => hmass }

end

end Factor

theorem factor_yields {net : Network} {keep : List CompId} {x y : Op} (hx : x.IsLattice)
    (hy : y.IsLattice) (hb : net.Balanced) (ha : net.Acyclic) (hs : Solid keep net) (ht : Trim keep net) :
    (net.factor x y).Yields fun r => Progress keep r.2 net r.1 ∧ Trim keep r.1 := by
  have hkind : ∃ kind, Kind.ofOp? x = some kind ∧ kind.op = x := by
    rcases hx with rfl | rfl
    · exact ⟨.and, rfl, rfl⟩
    · exact ⟨.or, rfl, rfl⟩
  obtain ⟨kind, hof, hop⟩ := hkind
  rw [factor, hof]
  refine sweep_progress (Trim keep) (fun net1 c k hb ha hs ht hk => ?_) hb ha hs ht
  split
  · exact .pure fun _ h => by cases h
  next hky =>
  rw [not_not] at hky
  refine .bind (factorable?_yields hb hk) fun r hr => ?_
  cases r with
  | none => exact .pure fun _ h => by cases h
  | some common =>
    obtain ⟨hf, hcc⟩ := hr common rfl
    have hp := hf.placed hb ha
    have hc : net1.op? c = some y := by rw [op?_of_get? hk, hky]
    have hck : c ∉ keep := hs.not_mem hc (by rcases hy with rfl | rfl <;> rfl)
    refine .bind (factorOut_yields hb hcc hk hf hop) fun net2 h => .pure ?_
    rintro _ ⟨⟩
    exact ⟨h.progress hp hf hx hy hc ha hs ht, h.trim hp (contains_of_op? hc) hck ht⟩

end Network

end GameNet
