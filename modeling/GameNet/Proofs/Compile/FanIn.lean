import GameNet.Proofs.Compile.NewGates

/-!
Capping the fan-in: no gate has more inputs than allowed in the end, and all else computes what it did.

While a gate is split, it has lost its inputs and gets them back run by run, each through a new gate. So
what is looked at is the network with the inputs that are still to come put back.
-/

namespace GameNet

open List

/-! ## Runs -/

namespace FanIn

variable {n : Nat} {ids : List CompId} {runs : List (List CompId)}

/-- The runs are those of the list, none is empty or too long, and there are half as many as there are
elements, or fewer. -/
structure Chunked (n : Nat) (ids : List CompId) (runs : List (List CompId)) : Prop where
  flat : runs.flatten = ids
  filled : ∀ run ∈ runs, run ≠ []
  half : 2 * runs.length ≤ ids.length + 1
  short : ∀ run ∈ runs, run.length ≤ n

theorem Chunked.cons (hn : 2 ≤ n) (hne : ids ≠ []) (h : Chunked n (ids.drop n) runs) :
    Chunked n ids (ids.take n :: runs) where
  flat := by rw [flatten_cons, h.flat, take_append_drop]
  filled := by
    refine forall_mem_cons.mpr ⟨fun hnil => ?_, h.filled⟩
    exact (take_eq_nil_iff.mp hnil).elim (Nat.ne_of_gt (Nat.zero_lt_of_lt hn)) hne
  half := by
    have hhalf := h.half
    have hpos := length_pos_iff.mpr hne
    rw [length_drop] at hhalf
    rw [length_cons]
    omega
  short := forall_mem_cons.mpr ⟨length_take_le _ _, h.short⟩

theorem chunked_go (hn : 2 ≤ n) (fuel : Nat) (ids : List CompId) (h : ids.length ≤ fuel) :
    Chunked n ids (chunks.go n fuel ids) := by
  have hnil : Chunked n [] [] := ⟨rfl, by simp, by simp, by simp⟩
  fun_induction chunks.go n fuel ids with
  | case1 ids => rwa [eq_nil_of_length_eq_zero (Nat.le_zero.mp h)]
  | case2 fuel => exact hnil
  | case3 ids fuel hne ih =>
    refine .cons hn hne (ih ?_)
    rw [length_drop]
    omega

theorem chunked_chunks (hn : 2 ≤ n) (ids : List CompId) : Chunked n ids (chunks n ids) :=
  chunked_go hn ids.length ids (Nat.le_refl _)

end FanIn

theorem Component.kind_of_or {k : Component} (h : k.op = .or) : k.kind = .or := by
  unfold Component.op at h
  cases hk : k.kind <;> rw [hk] at h <;> first | rfl | cases h

namespace Network

open FanIn

/-! ## Gates that have counted their inputs -/

def SettledAt (net : Network) (c : CompId) : Prop := ∀ k, net.get? c = some k →
  k.isGate = true ∨ k.inputs ≠ [] → k.count = (k.inputs.countP net.valueAt : Nat)

theorem SettledAt.of_bare {net net' : Network} {c : CompId} (h : net.SettledAt c)
    (hbare : net'.bare? c = net.bare? c) (hin : ∀ a, net'.edgesIn a c = net.edgesIn a c)
    (hval : ∀ a ∈ net.inputsOf c, net'.valueAt a = net.valueAt a) : net'.SettledAt c := by
  intro k' hk' hor
  obtain ⟨k, hk⟩ := contains_iff.mp
    ((contains_of_face? (face?_of_bare? hbare)).symm.trans (contains_of_get? hk'))
  have hperm : (net'.inputsOf c).Perm (net.inputsOf c) := perm_iff_count.mpr hin
  rw [inputsOf_of_get? hk, inputsOf_of_get? hk'] at hperm
  rw [inputsOf_of_get? hk] at hval
  rw [bare?, bare?, hk, hk'] at hbare
  have hbare : k'.bare = k.bare := Option.some.inj hbare
  have hgate : k'.bare.isGate = k.bare.isGate := congrArg Component.isGate hbare
  have hor' : k.isGate = true ∨ k.inputs ≠ [] :=
    hor.imp hgate.symm.trans fun hne hnil => hne (List.Perm.eq_nil (hnil ▸ hperm))
  rw [Component.count_of_bare hbare, h k hk hor', hperm.countP_eq]
  exact congrArg Nat.cast (countP_congr fun a ha => by rw [hval a ha])

/-! ## Putting inputs back -/

def withInputs (net : Network) (c : CompId) (rest : List CompId) : Network :=
  net.modify c fun k => { k with inputs := k.inputs ++ rest }

def lacking (edges : CompId → CompId → Nat) (c : CompId) (rest : List CompId) (a b : CompId) : Nat :=
  if b = c then edges a b - rest.count a else edges a b

def gathered (edges : CompId → CompId → Nat) (c g : CompId) (run : List CompId) (a b : CompId) : Nat :=
  if b = g then run.count a
  else if b = c then if a = g then 1 else edges a c - run.count a
  else edges a b

section Gather

variable {net net' : Network} {c : CompId} {run rest : List CompId} {edges : CompId → CompId → Nat}
  {ins outs : CompId → CompId → Nat} {v : CompId → Bool} {op : Op}

theorem rewires_withInputs (touched : CompId → Prop) (net : Network) (c : CompId) (rest : List CompId) :
    Rewires touched net (net.withInputs c rest) := rewires_modify touched net c

theorem Wired.withInputs (h : Wired net (lacking edges c rest) edges) (hc : net.contains c)
    (hle : ∀ a, rest.count a ≤ edges a c) : Wired (net.withInputs c rest) edges edges := by
  refine h.modify_inputs hc (· ++ rest) (fun a => ?_) fun a b hbc => ?_
  · have hin : (net.inputsOf c).count a = lacking edges c rest a c := h.ins a c
    have := hle a
    rw [count_append, hin, lacking, if_pos rfl]
    omega
  · rw [lacking, if_neg hbc]

theorem refresh_fitted (net : Network) (c : CompId) :
    (net.refresh c).Ensures fun net' => ∀ k, net'.get? c = some k → k.op = .and →
      k.reqTrue = k.inputs.length ∧ k.reqFalse = k.inputs.length - 1 := by
  unfold refresh
  refine .bind (fun k hk => get?_of_get hk) fun k hk => ?_
  refine .bind (P := fun _ => True) (fun _ _ => trivial) fun n _ => .pure fun k' hk' hop => ?_
  rw [get?_modify, if_pos rfl, hk] at hk'
  have hk' := Option.some.inj hk'
  have hand : k.fitThresholds.op = .and := by
    rw [← hop, ← hk']
    dsimp only
    split <;> rfl
  have hkop : k.op = .and := by rwa [Component.op, k.fitThresholds_keeps.2.2.1] at hand
  dsimp only at hk'
  rw [Component.fitThresholds_of_and hkop] at hk'
  rw [← hk']
  split <;> exact ⟨rfl, rfl⟩

theorem refresh_settled (hg : ∀ k, net.get? c = some k → k.isGate) (hself : c ∉ net.inputsOf c) :
    (net.refresh c).Ensures fun net' => net'.SettledAt c := by
  unfold refresh
  refine .bind (fun k hk => get?_of_get hk) fun k hk => ?_
  have hcount : (k.inputs.foldlM (fun n i => do return if (← net.get i).value then n + 1 else n)
      (0 : Int) : Checked Int).Ensures fun n => n = (k.inputs.countP net.valueAt : Nat) :=
    Checked.partly.countM Component.value k.inputs fun i _ ki hki =>
      (valueAt_of_get? (get?_of_get hki)).symm
  refine .bind hcount fun n hn => .pure fun k' hk' _ => ?_
  rw [get?_modify, if_pos rfl, hk, Option.map_some, Option.some.injEq] at hk'
  have hgate : k.fitThresholds.isGate := by
    rw [Component.isGate, Component.op, k.fitThresholds_keeps.2.2.1]
    exact hg k hk
  dsimp only at hk'
  rw [if_pos hgate] at hk'
  subst hk'
  dsimp only
  rw [hn, k.fitThresholds_keeps.1]
  rw [inputsOf_of_get? hk] at hself
  refine congrArg Nat.cast (countP_congr fun a ha => ?_)
  rw [valueAt, valueAt, get?_modify, if_neg (ne_of_mem_of_not_mem ha hself)]

theorem moveInputs_yields (touched : CompId → Prop) {g : CompId} (h : Wired net ins outs)
    (hg : net.contains g) (hgc : g ≠ c) (hrun : ∀ i ∈ run, net.contains i)
    (hle : ∀ a, run.count a ≤ outs a c) :
    (run.foldlM (fun net i => do
        let net ← net.replaceOutput i c g
        net.update g fun k => { k with inputs := k.inputs ++ [i] }) net : Checked Network).Yields
      fun net' => Rewires touched net net' ∧
        Wired net' (fun a b => if b = g then ins a b + run.count a else ins a b)
          (fun a b => if b = c then outs a b - run.count a
            else if b = g then outs a b + run.count a else outs a b) := by
  apply foldlM_rewires touched run
  · exact h.congr (fun a b => by simp) fun a b => by simp
  intro done i net' hmem hsub hr hw
  have hcount := fun a => Nat.le_trans (hsub.count_le a) (hle a)
  have hpos : 0 < outs i c - done.count i := by
    have := hcount i
    grind
  refine .bind (replaceOutput_yields touched hw ((hr.contains i).trans (hrun i hmem)) (by simpa using hpos)
    g) fun net1 h1 => ?_
  have hg1 := (h1.1.contains g).trans ((hr.contains g).trans hg)
  refine ⟨_, update_of_contains hg1 _, h1.1.trans (rewires_modify touched net1 g),
    (h1.2.pushInput hg1 i).congr (fun a b => ?_) fun a b => ?_⟩
  · grind [arrow]
  · have := hcount a
    grind [arrow]

structure Gathers (op : Op) (edges : CompId → CompId → Nat) (c : CompId) (run rest : List CompId)
    (net net' : Network) : Prop extends Grows op net net' where
  wired : Wired net' (lacking (gathered edges c net.capacity run) c rest)
    (gathered edges c net.capacity run)
  fitted : net'.FittedAt net.capacity
  settled : net'.SettledAt net.capacity

theorem gather_yields {kind : Kind} (hlat : kind.op.IsLattice) (hw : Wired net (lacking edges c (run ++ rest)) edges)
    (hc : net.contains c) (hrun : ∀ i ∈ run, net.contains i) (hle : ∀ a, (run ++ rest).count a ≤ edges a c)
    (hcap : ∀ a, edges a net.capacity = 0 ∧ edges net.capacity a = 0) :
    (gather kind c net run).Yields (Gathers kind.op edges c run rest net) := by
  have hgc := (ne_capacity_of_contains hc).symm
  let touched : CompId → Prop := (· = net.capacity)
  unfold gather
  obtain ⟨net1, hadd, hnew⟩ := add_eq net kind unset
  rw [hadd]
  have hw1 := hnew.wired hw
  refine .bind (moveInputs_yields touched hw1 hnew.contains_new hgc
    (fun i hi => hnew.contains_old (hrun i hi)) fun a => ?_) fun net2 h2 => ?_
  · have := hle a
    rw [count_append] at this
    omega
  obtain ⟨hr2, hw2⟩ := h2
  have hg2 := (hr2.contains _).trans hnew.contains_new
  refine .bind (link_yields touched hw2 hg2 ((hr2.contains c).trans (hnew.contains_old hc)))
    fun net3 h3 => ?_
  obtain ⟨hr3, hw3⟩ := h3
  have hr3 := hr2.trans hr3
  have hw3 : Wired net3 (lacking (gathered edges c net.capacity run) c rest)
      (gathered edges c net.capacity run) := by
    refine hw3.congr (fun a b => ?_) fun a b => ?_
    all_goals
      have h1 := hle a
      have h2 := hcap a
      have h3 := hcap b
      have h4 := hcap c
      rw [count_append] at h1
      grind [lacking, gathered, arrow]
  have hmem : ∀ i ∈ net3.inputsOf net.capacity, i ∈ run := by
    intro i hi
    rw [hw3.mem_inputsOf] at hi
    rw [← count_pos_iff]
    grind [lacking, gathered]
  have hgate : ∀ k, net3.get? net.capacity = some k → k.isGate := by
    intro k hk
    have hop : some k.op = some kind.op := (op?_of_get? hk).symm.trans ((hr3.op? _).trans hnew.op?)
    rw [Component.isGate, Option.some.inj hop]
    exact hlat.isGate
  obtain ⟨net4, hok, hr4, hw4, -⟩ :=
    refresh_yields touched hw3 ((hr3.contains _).trans hnew.contains_new)
      (fun i hi => (hr3.contains i).trans (hnew.contains_old (hrun i (hmem i hi)))) rfl
  refine ⟨net4, hok, hnew.grows (hr3.trans hr4) fun d hd => hd, hw4, refresh_fitted _ _ net4 hok,
    refresh_settled hgate (fun hself => ?_) net4 hok⟩
  exact ne_capacity_of_contains (hrun _ (hmem _ hself)) rfl

theorem read_gathered {inputs : List CompId} (hlat : op.IsLattice)
    (hgate : v net.capacity = op.read run v) (hle : ∀ a, run.count a ≤ net.edgesIn a c)
    (hcg : c ≠ net.capacity) (hin : ∀ a, a ∈ inputs ↔ 0 < gathered net.edgesIn c net.capacity run a c) :
    op.read inputs v = op.read (net.inputsOf c) v := by
  refine Op.read_nested hlat (R := fun a => run.count a < net.edgesIn a c) hgate (fun a => ?_) fun a => ?_
  · have := hle a
    rw [hin]
    grind [gathered]
  · have := hle a
    rw [← edgesIn_pos, ← count_pos_iff]
    omega

theorem read_withGate {b : Bool} {l : List CompId}
    (h : net.capacity ∉ l) : op.read l (net.withGate b v) = op.read l v :=
  Op.read_of_forall_eq _ fun _ ha => if_neg (ne_of_mem_of_not_mem ha h)

/-- A gate of the same sort between a gate and some of its inputs changes nothing. -/
theorem Inserts.gathered_sound {keep : CompId → Prop}
    (h : Inserts op (gathered net.edgesIn c net.capacity run) net net') (hlat : op.IsLattice)
    (hb : net.Balanced) (ha : net.Acyclic) (hop : net.op? c = some op) (hrun : run ≠ [])
    (hle : ∀ a, run.count a ≤ net.edgesIn a c) : Sound keep net net' := by
  obtain ⟨rank, hrank, -⟩ := ha.exists_rank hb
  have hedge : ∀ a b, 0 < net.edgesIn a b → rank a < rank b := fun a b hab =>
    hrank a b (edgesIn_pos.mp hab)
  have hcap := edgesIn_capacity hb
  have hcg := ne_capacity_of_contains (contains_of_op? hop)
  have hmem : ∀ a ∈ run, 0 < net.edgesIn a c := fun a har =>
    Nat.lt_of_lt_of_le (count_pos_iff.mpr har) (hle a)
  have hnew : ∀ b, net.capacity ∉ net.inputsOf b := fun b => by
    rw [← edgesIn_pos, (hcap b).2]
    exact Nat.lt_irrefl 0
  have hnrun : net.capacity ∉ run := fun hmr => hnew c (edgesIn_pos.mp (hmem _ hmr))
  obtain ⟨i, hi⟩ := exists_mem_of_ne_nil _ hrun
  -- ranks are doubled to make room for the new gate right below `c`
  refine h.sound hlat (fun d => if d = net.capacity then 2 * rank c - 1 else 2 * rank d)
    (fun a b hab => ?_) ⟨i, ?_⟩ (fun d hd hnil a => ?_) (fun d hd hfed => ?_)
    (fun d op' hop' hand hor hlen a b had hbd => ?_)
    (fun v hv => ⟨op.read run v, fun inputs hin => ?_, fun d op' hop' hfed inputs hin => ?_⟩)
    fun a hun b => ?_
  · have h1 := hedge a b
    have h2 := hedge a c
    have h3 := hmem a
    rw [← count_pos_iff] at h3
    have h4 := hcap c
    have h5 := hedge i c (hmem i hi)
    grind [gathered]
  · rw [gathered, if_pos rfl]
    exact count_pos_iff.mpr hi
  · have hdc : d ≠ c := by
      rintro rfl
      have := edgesIn_pos.mp (hmem i hi)
      rw [hnil] at this
      cases this
    rw [gathered, if_neg hd, if_neg hdc, edgesIn, hnil]
    rfl
  · by_cases hdc : d = c
    · exact ⟨net.capacity, by grind [gathered]⟩
    · obtain ⟨a, had⟩ := exists_mem_of_ne_nil _ hfed
      exact ⟨a, by rw [gathered, if_neg hd, if_neg hdc]; exact edgesIn_pos.mpr had⟩
  · have hdc : d ≠ c := by
      rintro rfl
      rw [hop, Option.some.injEq] at hop'
      subst hop'
      exact hlat.elim hand hor
    have hdg := ne_capacity_of_contains (contains_of_op? hop')
    rw [length_inputsOf_le_one hb.wired] at hlen
    rw [gathered, if_neg hdg, if_neg hdc] at had hbd
    rw [gathered, if_neg hdg, if_neg hdc]
    exact hlen a b had hbd
  · have hin : ∀ a, a ∈ inputs ↔ a ∈ run := fun a => by
      rw [hin, gathered, if_pos rfl, count_pos_iff]
    rw [Op.read_of_mem_iff op _ hin, read_withGate hnrun]
  · by_cases hdc : d = c
    · subst hdc
      rw [hop, Option.some.injEq] at hop'
      subst hop'
      rw [read_gathered hlat ?_ hle hcg hin, read_withGate (hnew d)]
      rw [read_withGate hnrun, withGate, if_pos rfl]
    · have hdg := ne_capacity_of_contains (contains_of_op? hop')
      have hin : ∀ a, a ∈ inputs ↔ a ∈ net.inputsOf d := fun a => by
        rw [hin, gathered, if_neg hdg, if_neg hdc, edgesIn_pos]
      rw [Op.read_of_mem_iff op' _ hin, read_withGate (hnew d)]
  · have h1 := hun.edgesIn hb b
    have h2 := hun.edgesIn hb c
    have h3 := ne_capacity_of_contains hun.1.contains
    have h4 := hle a
    grind [gathered]

theorem Inserts.gathered_obeys (h : Inserts op (gathered net.edgesIn c net.capacity run) net net')
    (hlat : op.IsLattice) (hop : net.op? c = some op) (hrun : run ≠ [])
    (hle : ∀ a, run.count a ≤ net.edgesIn a c) (hv : net'.Obeys v) : net.Obeys v := by
  have hcg := ne_capacity_of_contains (contains_of_op? hop)
  have hgate : v net.capacity = op.read run v := by
    have hin : ∀ a, a ∈ net'.inputsOf net.capacity ↔ a ∈ run := fun a => by
      rw [h.wired.mem_inputsOf, gathered, if_pos rfl, count_pos_iff]
    obtain ⟨i, hi⟩ := exists_mem_of_ne_nil _ hrun
    rw [hv net.capacity op h.gate (ne_nil_of_mem ((hin i).mpr hi)), Op.read_of_mem_iff op v hin]
  intro d op' hop' hfed
  have hdg := ne_capacity_of_contains (contains_of_op? hop')
  have hop₁ : net'.op? d = some op' := (op?_of_face? (h.face hdg)).trans hop'
  by_cases hdc : d = c
  · subst hdc
    rw [hop, Option.some.injEq] at hop'
    subst hop'
    have hg : net.capacity ∈ net'.inputsOf d := h.wired.mem_inputsOf.mpr (by grind [gathered])
    rw [hv d op hop₁ (ne_nil_of_mem hg)]
    exact read_gathered hlat hgate hle hcg fun a => h.wired.mem_inputsOf
  · have hin : ∀ a, a ∈ net'.inputsOf d ↔ a ∈ net.inputsOf d := fun a => by
      rw [h.wired.mem_inputsOf, gathered, if_neg hdg, if_neg hdc, edgesIn_pos]
    obtain ⟨a, had⟩ := exists_mem_of_ne_nil _ hfed
    rw [hv d op' hop₁ (ne_nil_of_mem ((hin a).mpr had)), Op.read_of_mem_iff op' v hin]

end Gather

/-! ## Splitting gates -/

section Split

variable {net net' net'' : Network} {c : CompId} {rest : List CompId} {k : Component} {cap : Nat}

theorem wired_of_withInputs (hb : (net.withInputs c rest).Balanced) (hc : net.contains c) :
    Wired net (lacking (net.withInputs c rest).edgesIn c rest) (net.withInputs c rest).edgesIn ∧
      ∀ a, rest.count a ≤ (net.withInputs c rest).edgesIn a c := by
  have hin : ∀ b, (net.withInputs c rest).inputsOf b =
      if b = c then net.inputsOf b ++ rest else net.inputsOf b := fun b =>
    inputsOf_modify net c b _ (· ++ rest) (fun _ => rfl) hc
  refine ⟨⟨fun a b => ?_, fun a b => ?_⟩, fun a => ?_⟩
  · rw [lacking, edgesIn, edgesIn, hin]
    split
    · rw [count_append, Nat.add_sub_cancel]
    · rfl
  · have hout : (net.withInputs c rest).outputsOf a = net.outputsOf a :=
      outputsOf_modify_of_eq net c a fun _ => rfl
    rw [← hb, edgesOut, edgesOut, hout]
  · rw [edgesIn, hin, if_pos rfl, count_append]
    exact Nat.le_add_left _ _

theorem Grows.withInputs {op : Op} (h : Grows op net net') (hc : c ≠ net.capacity)
    (rest rest' : List CompId) : Grows op (net.withInputs c rest) (net'.withInputs c rest') where
  parts := h.parts
  capacity := by
    rw [(rewires_withInputs (fun _ => True) net' c rest').capacity, h.capacity,
      (rewires_withInputs (fun _ => True) net c rest).capacity]
  bare d hd := by
    rw [(rewires_withInputs (fun _ => False) net c rest).capacity] at hd
    rw [(rewires_withInputs (fun _ => False) net' c rest').bare d id, h.bare d hd,
      (rewires_withInputs (fun _ => False) net c rest).bare d id]
  gate := by
    rw [(rewires_withInputs (fun _ => False) net' c rest').op?,
      (rewires_withInputs (fun _ => False) net c rest).capacity, h.gate]
  shaped k hk := by
    rw [(rewires_withInputs (fun _ => False) net c rest).capacity, Network.withInputs, get?_modify,
      if_neg (Ne.symm hc)] at hk
    exact h.shaped k hk

theorem Rewires.sound {touched keep : CompId → Prop} (h : Rewires touched net net')
    (hb : net.Balanced) (ha : net.Acyclic) (hw : Wired net' net.edgesIn net.edgesIn)
    (ht : ∀ c, touched c → net.inputsOf c ≠ []) : Sound keep net net' := by
  obtain ⟨rank, hrank, -⟩ := ha.exists_rank hb
  refine (h.edit hw).sound (fun _ _ => id) rank (fun a b hab => hrank a b (edgesIn_pos.mp hab))
    (fun c hc hi => absurd hi (ht c hc)) (fun c _ hi a => ?_) (fun c _ hi => ?_)
    (fun c op _ _ _ _ hl => (length_inputsOf_le_one hb.wired c).mp hl)
    (fun v _ c op _ _ _ inputs hin => Op.read_of_mem_iff op v fun a => ?_)
    fun a hun b => hun.edgesIn hb b
  · rw [edgesIn, hi]
    rfl
  · obtain ⟨a, hac⟩ := exists_mem_of_ne_nil _ hi
    exact ⟨a, edgesIn_pos.mpr hac⟩
  · rw [hin, edgesIn_pos]

theorem length_inputsOf_eq (h : ∀ a, net'.edgesIn a c = net.edgesIn a c) :
    (net'.inputsOf c).length = (net.inputsOf c).length :=
  (perm_iff_count.mpr h).length_eq

theorem withInputs_nil (net : Network) (c : CompId) : net.withInputs c [] = net := by
  refine (modify_congr fun k _ => ?_).trans (modify_id net c)
  rw [append_nil]
  rfl

theorem withInputs_cleared (hk : net.get? c = some k) :
    (net.modify c fun k => { k with inputs := [] }).withInputs c k.inputs = net := by
  have hslots : (net.slots.modify c (Option.map fun k => { k with inputs := [] })).modify c
      (Option.map fun k' => { k' with inputs := k'.inputs ++ k.inputs }) = net.slots := by
    refine Array.ext_getElem? fun d => ?_
    rw [Array.getElem?_modify, Array.getElem?_modify]
    by_cases hd : c = d
    · subst hd
      rw [get?, Option.join_eq_some_iff] at hk
      rw [if_pos rfl, if_pos rfl, hk]
      rfl
    · rw [if_neg hd, if_neg hd]
  rw [withInputs, modify, modify, hslots]

theorem Standard.fitted (h : net.Standard) : net.Fitted := by
  intro c k hk hand
  have htrue := (h c k hk).reqTrue
  have hfalse := (h c k hk).reqFalse
  rw [if_pos hand] at htrue hfalse
  exact ⟨htrue, hfalse⟩

/-- There may be more gates, and every old component computes what it did. Thresholds and counts are
right if they were. -/
structure Expands (net net' : Network) : Prop extends Sound (fun _ => True) net net' where
  obeys : ∀ v, net'.Obeys v → net.Obeys v
  fitted : net.Fitted → net'.Fitted
  settled : net.Standard → net.Settled → net'.Settled

theorem Expands.standard (h : Expands net net') (hstd : net.Standard) : net'.Standard :=
  h.toSound.standard hstd (h.fitted hstd.fitted)

theorem Expands.refl (hb : net.Balanced) (ha : net.Acyclic) : Expands net net :=
  { Sound.refl hb ha with
    obeys := fun _ hv => hv
    fitted := id
    settled := fun _ hs => hs }

theorem Expands.trans (h : Expands net net') (h' : Expands net' net'') : Expands net net'' :=
  { h.toSound.trans h'.toSound with
    obeys := fun v hv => h.obeys v (h'.obeys v hv)
    fitted := fun hf => h'.fitted (h.fitted hf)
    settled := fun hstd hs => h'.settled (h.standard hstd) (h.settled hstd hs) }

theorem Obeys.of_edges {v : CompId → Bool} (hv : net'.Obeys v) (hop : ∀ d, net'.op? d = net.op? d)
    (hin : ∀ a d, net'.edgesIn a d = net.edgesIn a d) : net.Obeys v := by
  intro d op hd hfed
  have hmem : ∀ a, a ∈ net'.inputsOf d ↔ a ∈ net.inputsOf d := fun a => by
    rw [← edgesIn_pos, ← edgesIn_pos, hin]
  obtain ⟨a, had⟩ := exists_mem_of_ne_nil _ hfed
  rw [hv d op ((hop d).trans hd) (ne_nil_of_mem ((hmem a).mpr had)), Op.read_of_mem_iff op v hmem]

theorem SettledAt.valueAt_eq (h : net.SettledAt c) (hk : net.get? c = some k) (hg : k.isGate)
    (hstd : k.Standard) : net.valueAt c = k.op.read (net.inputsOf c) net.valueAt := by
  rw [valueAt, hk, Option.elim_some, inputsOf_of_get? hk]
  exact hstd.value_eq_read (h k hk (.inl hg))

/-- While `c` gets its inputs back: `runs` are still to come, out of `n` runs of up to `cap` inputs. -/
structure Splitting (net : Network) (op : Op) (c : CompId) (cap n : Nat) (runs : List (List CompId))
    (cur : Network) : Prop where
  old : net.contains c = true
  live : cur.contains c = true
  sort : cur.op? c = some op
  short : ∀ run ∈ runs, run ≠ [] ∧ run.length ≤ cap
  sound : Sound (fun _ => True) net (cur.withInputs c runs.flatten)
  obeys : ∀ v, (cur.withInputs c runs.flatten).Obeys v → net.Obeys v
  fitted : net.Fitted → ∀ d, d ≠ c → cur.FittedAt d
  settled : net.Standard → net.Settled → (∀ d, d ≠ c → cur.SettledAt d) ∧
    cur.valueAt c = op.read ((cur.withInputs c runs.flatten).inputsOf c) cur.valueAt
  kept : ∀ d, d ≠ c → net.contains d = true → (cur.inputsOf d).length = (net.inputsOf d).length
  narrow : ∀ d, net.contains d = false → (cur.inputsOf d).length ≤ cap
  number : (cur.inputsOf c).length + runs.length = n

theorem Gathers.length_inputsOf {op : Op} {edges : CompId → CompId → Nat} {run rest : List CompId}
    (h : Gathers op edges c run rest net net') (hw : Wired net (lacking edges c (run ++ rest)) edges)
    (hle : ∀ a, (run ++ rest).count a ≤ edges a c) (hc : c ≠ net.capacity)
    (hcap : ∀ a, edges net.capacity a = 0) (d : CompId) : (net'.inputsOf d).length =
      if d = net.capacity then run.length
      else if d = c then (net.inputsOf d).length + 1 else (net.inputsOf d).length := by
  have hcount : ∀ a, (net'.inputsOf d).count a = lacking (gathered edges c net.capacity run) c rest a d :=
    fun a => h.wired.ins a d
  have hold : ∀ a, (net.inputsOf d).count a = lacking edges c (run ++ rest) a d := fun a => hw.ins a d
  split
  · next hd =>
    refine List.Perm.length_eq (perm_iff_count.mpr fun a => ?_)
    rw [hcount, lacking, if_neg (hd ▸ hc.symm), gathered, if_pos hd]
  next hdg =>
  split
  · next hdc =>
    have hperm : (net'.inputsOf d).Perm (net.capacity :: net.inputsOf d) := by
      refine perm_iff_count.mpr fun a => ?_
      have h1 := hle a
      have h2 := hcap c
      rw [count_append] at h1
      rw [count_cons, hcount, hold, lacking, lacking, if_pos hdc, if_pos hdc, gathered,
        if_neg hdg, if_pos hdc, count_append]
      grind
    rw [hperm.length_eq, length_cons]
  · next hdc =>
    refine List.Perm.length_eq (perm_iff_count.mpr fun a => ?_)
    rw [hcount, hold, lacking, lacking, if_neg hdc, if_neg hdc, gathered, if_neg hdg, if_neg hdc]

theorem Splitting.step {kind : Kind} {cap n : Nat} {run : List CompId} {runs : List (List CompId)}
    {cur : Network} (h : Splitting net kind.op c cap n (run :: runs) cur) (hlat : kind.op.IsLattice) :
    (gather kind c cur run).Yields (Splitting net kind.op c cap n runs) := by
  obtain ⟨hold, hlive, hsort, hshort, hsound, hobeys, hfitted, hsettled, hkept, hnarrow, hnumber⟩ := h
  obtain ⟨hne, hlen⟩ := hshort run mem_cons_self
  rw [flatten_cons] at hsound hobeys hsettled
  have hstar := rewires_withInputs (fun _ => False) cur c (run ++ runs.flatten)
  obtain ⟨hw, hle⟩ := wired_of_withInputs hsound.balanced hlive
  have hcap := edgesIn_capacity hsound.balanced
  rw [hstar.capacity] at hcap
  have hcg := ne_capacity_of_contains hlive
  have hsource : ∀ i ∈ (cur.withInputs c (run ++ runs.flatten)).inputsOf c, cur.contains i :=
    fun i hi => (hstar.contains i).symm.trans (hsound.balanced.contains_source hi)
  have hle' : ∀ a, run.count a ≤ (cur.withInputs c (run ++ runs.flatten)).edgesIn a c := fun a => by
    have := hle a
    rw [count_append] at this
    omega
  have hrun : ∀ i ∈ run, cur.contains i := fun i hi =>
    hsource i (edgesIn_pos.mp (Nat.lt_of_lt_of_le (count_pos_iff.mpr hi) (hle' i)))
  refine (gather_yields hlat hw hlive hrun hle hcap).mono fun cur' h' => ?_
  have hlive' := (h'.contains hcg).trans hlive
  have hins : Inserts kind.op (gathered (cur.withInputs c (run ++ runs.flatten)).edgesIn c
      (cur.withInputs c (run ++ runs.flatten)).capacity run)
      (cur.withInputs c (run ++ runs.flatten)) (cur'.withInputs c runs.flatten) := by
    refine ⟨h'.withInputs hcg _ _, ?_⟩
    rw [hstar.capacity]
    refine h'.wired.withInputs hlive' fun a => ?_
    have h1 := hle a
    have h2 := hcap c
    rw [count_append] at h1
    grind [gathered]
  have hop : (cur.withInputs c (run ++ runs.flatten)).op? c = some kind.op := (hstar.op? c).trans hsort
  have hval : ∀ d, cur.contains d → cur'.valueAt d = cur.valueAt d := fun d hd =>
    valueAt_of_bare? (h'.bare d (ne_capacity_of_contains hd))
  have hlength := h'.length_inputsOf hw hle hcg fun a => (hcap a).2
  have hsame : ∀ d, d ≠ c → d ≠ cur.capacity → ∀ a, cur'.edgesIn a d = cur.edgesIn a d := by
    intro d hdc hdg a
    rw [h'.wired.ins, hw.ins, lacking, lacking, if_neg hdc, if_neg hdc, gathered, if_neg hdg, if_neg hdc]
  refine ⟨hold, hlive', ?_, (forall_mem_cons.mp hshort).2, hsound.trans ?_,
    fun v hv => hobeys v ?_, fun hf d hdc => ?_, fun hstd hs => ⟨fun d hdc => ?_, ?_⟩,
    fun d hdc hd => ?_, fun d hd => ?_, ?_⟩
  · rw [op?_of_face? (h'.face hcg), hsort]
  · exact hins.gathered_sound hlat hsound.balanced hsound.acyclic hop hne hle'
  · exact hins.gathered_obeys hlat hop hne hle' hv
  · by_cases hdg : d = cur.capacity
    · exact hdg ▸ h'.fitted
    · exact (hfitted hf d hdc).of_bare (h'.bare d hdg) (length_inputsOf_eq (hsame d hdc hdg))
  · by_cases hdg : d = cur.capacity
    · exact hdg ▸ h'.settled
    · refine ((hsettled hstd hs).1 d hdc).of_bare (h'.bare d hdg) (hsame d hdc hdg) fun a had => ?_
      rw [hw.mem_inputsOf, lacking, if_neg hdc, edgesIn_pos] at had
      exact hval a ((hstar.contains a).symm.trans (hsound.balanced.contains_source had))
  · -- the new gate has the value of its run, so `c` reads through it what it read before
    obtain ⟨k, hk⟩ := contains_iff.mp (contains_of_op? h'.gate)
    have hkop : k.op = kind.op := Option.some.inj ((op?_of_get? hk).symm.trans h'.gate)
    have hgate := h'.settled.valueAt_eq hk (by rw [Component.isGate, hkop]; exact hlat.isGate)
      ((h'.shaped k hk).standard (h'.fitted k hk))
    have hmem : ∀ a, a ∈ cur'.inputsOf cur.capacity ↔ a ∈ run := fun a => by
      rw [h'.wired.mem_inputsOf, lacking, if_neg (Ne.symm hcg), gathered, if_pos rfl, count_pos_iff]
    rw [hkop, Op.read_of_mem_iff _ _ hmem, ← hstar.capacity] at hgate
    rw [read_gathered hlat hgate hle' (ne_capacity_of_contains ((hstar.contains c).trans hlive))
      fun a => hins.wired.mem_inputsOf, hval c hlive, (hsettled hstd hs).2]
    exact Op.read_of_forall_eq _ fun a ha => (hval a (hsource a ha)).symm
  · have hdg : d ≠ cur.capacity := by
      have := Nat.lt_of_lt_of_le (lt_capacity_of_contains hd) (hsound.capacity.trans_eq hstar.capacity)
      exact Nat.ne_of_lt this
    rw [hlength, if_neg hdg, if_neg hdc, hkept d hdc hd]
  · rw [hlength]
    split
    · exact hlen
    rw [if_neg]
    · exact hnarrow d hd
    rintro rfl
    rw [hold] at hd
    cases hd
  · rw [hlength, if_neg hcg, if_pos rfl]
    rw [length_cons] at hnumber
    omega

/-- What splitting `c` comes to: new gates of up to `cap` inputs, and about half as many at `c`. -/
structure Splits (cap : Nat) (c : CompId) (net net' : Network) : Prop extends Expands net net' where
  kept : ∀ d, d ≠ c → net.contains d = true → (net'.inputsOf d).length = (net.inputsOf d).length
  small : ∀ d, net.contains d = false → (net'.inputsOf d).length ≤ cap
  halved : 2 * (net'.inputsOf c).length ≤ (net.inputsOf c).length + 1

theorem Splitting.refresh {op : Op} {cap n : Nat} {cur : Network}
    (h : Splitting net op c cap n [] cur) (hlat : op.IsLattice) (hi : net.inputsOf c ≠ [])
    (hn : 2 * n ≤ (net.inputsOf c).length + 1) : (cur.refresh c).Yields (Splits cap c net) := by
  obtain ⟨hold, hlive, hsort, -, hsound, hobeys, hfitted, hsettled, hkept, hnarrow, hnumber⟩ := h
  rw [flatten_nil, withInputs_nil] at hsound hobeys hsettled
  have hb := hsound.balanced
  have hself : c ∉ cur.inputsOf c := fun hcc => hsound.acyclic c (.single hcc)
  have hgate : ∀ {k : Component}, some k.op = some op → k.isGate := fun hk => by
    rw [Component.isGate, Option.some.inj hk]
    exact hlat.isGate
  obtain ⟨net', hok, hr, hw, -⟩ := refresh_yields (· = c) hb.wired hlive
    (fun i hi => hb.contains_source hi) rfl
  have hfit := refresh_fitted cur c net' hok
  have hset := refresh_settled (fun k hk => hgate ((op?_of_get? hk).symm.trans hsort)) hself net' hok
  have hlen : ∀ d, (net'.inputsOf d).length = (cur.inputsOf d).length := fun d =>
    length_inputsOf_eq fun a => hw.ins a d
  have hnext : Sound (fun _ => True) cur net' := hr.sound hb hsound.acyclic hw (by
    rintro d rfl
    exact hsound.fed d hlive hi)
  have hall : net.Fitted → net'.Fitted := fun hf d => by
    by_cases hdc : d = c
    · exact hdc ▸ hfit
    · exact (hfitted hf d hdc).of_bare (hr.bare d hdc) (hlen d)
  refine ⟨net', hok, { hsound.trans hnext with
    obeys := fun v hv => hobeys v (hv.of_edges hr.op? fun a d => hw.ins a d), fitted := hall,
    settled := fun hstd hs d => ?_, kept := fun d hdc hd => (hlen d).trans (hkept d hdc hd),
    small := fun d hd => (hlen d).trans_le (hnarrow d hd), halved := ?_ }⟩
  · obtain ⟨hothers, hread⟩ := hsettled hstd hs
    by_cases hdc : d = c
    · exact hdc ▸ hset
    refine (hothers d hdc).of_bare (hr.bare d hdc) (fun a => hw.ins a d) fun a _ => ?_
    have hval : ∀ a, a ≠ c → net'.valueAt a = cur.valueAt a := fun a hac =>
      valueAt_of_bare? (hr.bare a hac)
    by_cases hac : a = c
    · subst hac
      obtain ⟨k, hk⟩ := contains_iff.mp ((hr.contains a).trans hlive)
      have hkop : some k.op = some op := (op?_of_get? hk).symm.trans ((hr.op? a).trans hsort)
      have hstd' : k.Standard := (hsound.trans hnext).standard hstd (hall hstd.fitted) a k hk
      have hmem : ∀ b, b ∈ net'.inputsOf a ↔ b ∈ cur.inputsOf a := fun b => by
        rw [← edgesIn_pos, ← edgesIn_pos, hw.ins]
      rw [hset.valueAt_eq hk (hgate hkop) hstd', Option.some.inj hkop, Op.read_of_mem_iff _ _ hmem, hread]
      exact Op.read_of_forall_eq _ fun b hb => hval b (ne_of_mem_of_not_mem hb hself)
    · exact hval a hac
  · rw [hlen]
    rw [length_nil] at hnumber
    omega

theorem regather_yields {runs : List (List CompId)} (hb : net.Balanced)
    (ha : net.Acyclic) (hk : net.get? c = some k) (hlat : k.kind.op.IsLattice)
    (hruns : runs.flatten = k.inputs) (hshort : ∀ run ∈ runs, run ≠ [] ∧ run.length ≤ cap)
    (hn : 2 * runs.length ≤ k.inputs.length + 1) (hi : k.inputs ≠ []) :
    (do
      let cur ← runs.foldlM (gather k.kind c) (net.modify c fun k => { k with inputs := [] })
      return (← cur.refresh c, runs.length) : Checked (Network × Nat)).Yields fun r =>
        Splits cap c net r.1 := by
  have hc := contains_of_get? hk
  rw [← inputsOf_of_get? hk] at hi hn
  have hempty := rewires_modify (f := fun k => { k with inputs := [] }) (fun _ => False) net c
  have hback := withInputs_cleared hk
  have hin : ∀ d, (net.modify c fun k => { k with inputs := [] }).inputsOf d =
      if d = c then [] else net.inputsOf d := fun d =>
    inputsOf_modify net c d _ (fun _ => []) (fun _ => rfl) hc
  have hval : (net.modify c fun k => { k with inputs := [] }).valueAt = net.valueAt :=
    funext fun d => valueAt_of_bare? (hempty.bare d id)
  have hsame : ∀ d, d ≠ c → (net.modify c fun k => { k with inputs := [] }).inputsOf d = net.inputsOf d :=
    fun d hdc => by rw [hin, if_neg hdc]
  have hstart : Splitting net k.kind.op c cap runs.length runs
      (net.modify c fun k => { k with inputs := [] }) := by
    refine ⟨hc, (hempty.contains c).trans hc, (hempty.op? c).trans (op?_of_get? hk), hshort, ?_,
      fun v hv => ?_, fun hf d hdc => ?_, fun hstd hs => ⟨fun d hdc => ?_, ?_⟩, fun d hdc _ => ?_,
      fun d hd => ?_, ?_⟩
    · rw [hruns, hback]
      exact .refl hb ha
    · rwa [hruns, hback] at hv
    · exact FittedAt.of_bare (hf d) (hempty.bare d id) (by rw [hsame d hdc])
    · refine SettledAt.of_bare (hs d) (hempty.bare d id) (fun a => ?_) fun a _ => by rw [hval]
      rw [edgesIn, edgesIn, hsame d hdc]
    · rw [hruns, hback, hval, valueAt, hk, inputsOf_of_get? hk]
      exact (hstd c k hk).value_eq_read (hs c k hk (.inl hlat.isGate))
    · rw [hsame d hdc]
    · have hdc : d ≠ c := by
        rintro rfl
        rw [hc] at hd
        cases hd
      rw [hsame d hdc, inputsOf, get?_eq_none_iff.mpr hd]
      exact Nat.zero_le _
    · rw [hin, if_pos rfl, length_nil, Nat.zero_add]
  refine .bind (Checked.total.foldlM (Splitting net k.kind.op c cap runs.length)
    (fun run runs cur h => h.step hlat) runs _ hstart) fun cur hcur => ?_
  exact .bind (hcur.refresh hlat hi hn) fun net' h => .pure h

theorem split_yields (hcap : 2 ≤ cap) (hb : net.Balanced)
    (ha : net.Acyclic) (hk : net.get? c = some k) (hlat : k.op.IsLattice) (hi : k.inputs ≠ []) :
    (FanIn.split cap net c).Yields fun r => Splits cap c net r.1 := by
  unfold FanIn.split
  refine .bind_ok (get_of_get? hk) ?_
  obtain ⟨hflat, hfilled, hhalf, hshort⟩ := chunked_chunks hcap k.inputs
  have hbody := regather_yields hb ha hk hlat hflat
    (fun run hrun => ⟨hfilled run hrun, hshort run hrun⟩) hhalf hi
  split
  · exact hbody
  · exact hbody
  next hand hor =>
  rcases hlat with hop | hop
  · exact absurd (Component.kind_of_and hop) hand
  · exact absurd (Component.kind_of_or hop) hor

theorem split_ensures (hcap : 2 ≤ cap) (hb : net.Balanced) (ha : net.Acyclic)
    (hi : net.inputsOf c ≠ []) : (FanIn.split cap net c).Ensures fun r => Splits cap c net r.1 := by
  intro r hr
  have hr' := hr
  unfold FanIn.split at hr'
  obtain ⟨k, hk, hr'⟩ := exists_of_bind_eq_ok hr'
  have hk := get?_of_get hk
  rw [inputsOf_of_get? hk] at hi
  have hyields := split_yields hcap hb ha hk
  split at hr'
  · next hand => exact (hyields (.inl (by rw [Component.op, hand]; rfl)) hi).ensures r hr
  · next hor => exact (hyields (.inr (by rw [Component.op, hor]; rfl)) hi).ensures r hr
  · cases hr'

def wide (cap : Nat) (net : Network) : List CompId :=
  (net.components.filter fun x => cap < x.2.inputs.length).map (·.1)

theorem mem_wide : c ∈ net.wide cap ↔ cap < (net.inputsOf c).length := by
  simp only [wide, mem_map, mem_filter, Prod.exists, mem_components, decide_eq_true_eq]
  refine ⟨?_, fun hlt => ?_⟩
  · rintro ⟨_, k, ⟨hk, hlt⟩, rfl⟩
    rwa [inputsOf_of_get? hk]
  obtain ⟨i, hi⟩ := exists_mem_of_length_pos (Nat.zero_lt_of_lt hlt)
  obtain ⟨k, hk⟩ := contains_iff.mp (contains_of_mem_inputsOf hi)
  rw [inputsOf_of_get? hk] at hlt
  exact ⟨c, k, ⟨hk, hlt⟩, rfl⟩

theorem turn_keeps (g : Guarantee Checked) {cap n : Nat} (inv : List CompId → Network → Prop)
    (step : ∀ c rest net, inv (c :: rest) net → g.holds (FanIn.split cap net c) fun r => inv rest r.1)
    (h : inv (net.wide cap) net) : g.holds (FanIn.turn cap (net, n)) (Guarantee.Reaches
      (fun s => inv [] s.1 ∧ ∃ c, cap < (net.inputsOf c).length)
      fun s => s.1 = net ∧ ∀ c, (net.inputsOf c).length ≤ cap) := by
  unfold FanIn.turn
  dsimp only
  split
  · next hnone =>
    refine g.pure ⟨rfl, fun c => Nat.not_lt.mp fun hlt => ?_⟩
    have hnil : net.wide cap = [] := List.isEmpty_iff.mp hnone
    rw [← mem_wide, hnil] at hlt
    cases hlt
  next hsome =>
  have hne : net.wide cap ≠ [] := fun hnil => hsome (List.isEmpty_iff.mpr hnil)
  obtain ⟨c, hc⟩ := exists_mem_of_ne_nil _ hne
  refine g.bind (g.foldlM (fun rest (s : Network × Nat) => inv rest s.1) (fun d rest s hs => ?_)
    (net.wide cap) (net, n) h) fun s hs => g.pure ⟨hs, c, mem_wide.mp hc⟩
  exact g.bind (step d rest s.1 hs) fun r hr => g.pure hr

theorem capFanIn_ensures (hb : net.Balanced) (ha : net.Acyclic) (cap : Nat) :
    (net.capFanIn cap).Ensures fun r => Sound (fun _ => True) net r.1 ∧
      (net.Fitted → r.1.Fitted) ∧ ∀ c, (r.1.inputsOf c).length ≤ max cap 2 := by
  refine Checked.partly.run_of_exhausted (fun s => Expands net s.1) _ (fun s hs => ?_) .throw
    (.refl hb ha)
  refine (turn_keeps Checked.partly (n := s.2)
    (fun rest net' => Expands net net' ∧ ∀ c ∈ rest, net'.contains c ∧ net'.inputsOf c ≠ [])
    (fun c rest net' h => ?_) ⟨hs, fun c hc => ?_⟩).mono fun r hr => ?_
  · obtain ⟨hsame, hrest⟩ := h
    obtain ⟨-, hi⟩ := hrest c mem_cons_self
    refine (split_ensures (Nat.le_max_right cap 2) hsame.balanced hsame.acyclic hi).mono fun r hr => ?_
    refine ⟨hsame.trans hr.toExpands, fun d hd => ?_⟩
    obtain ⟨hlive, hfed⟩ := hrest d (mem_cons_of_mem _ hd)
    have hlive' := hr.keeps d trivial hlive
    exact ⟨hlive', hr.fed d hlive' hfed⟩
  · have hpos := Nat.zero_lt_of_lt (mem_wide.mp hc)
    obtain ⟨i, hi⟩ := exists_mem_of_length_pos hpos
    exact ⟨contains_of_mem_inputsOf hi, ne_nil_of_length_pos hpos⟩
  · cases r with
    | next s' => exact hr.1.1
    | done s' =>
      obtain ⟨hsame, hsmall⟩ := hr
      rw [← hsame] at hsmall hs
      exact ⟨hs.toSound, hs.fitted, hsmall⟩

end Split

end Network

end GameNet
