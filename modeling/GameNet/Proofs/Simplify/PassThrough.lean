import GameNet.Proofs.Simplify.Replace
import GameNet.Simplify.PassThrough

/-!
Splicing out components that pass their one input on, and dropping repeated edges.
-/

namespace GameNet.Network

open List

def bypassed (net : Network) (c x a b : CompId) : Nat :=
  if a = c ∨ b = c then 0 else net.edgesIn a b + if a = x then net.edgesIn c b else 0

theorem replaces_bypassed (net : Network) {c x : CompId} (hx : x ≠ c) :
    Replaces net c x (net.bypassed c x) := by
  constructor <;> grind [bypassed]

section Splice

variable {net : Network} {c x : CompId} {k : Component}

theorem splice_step {ins outs : CompId → CompId → Nat} {o : CompId} (h : Wired net ins outs)
    (hx : net.contains x) (ho : net.contains o) (hpos : 0 < ins c o) :
    (do
      let net ← net.update x fun k => { k with
        outputs := if k.outputs.contains c then replaceFirst c o k.outputs else k.outputs ++ [o] }
      net.replaceInput o c x : Checked Network).Yields fun net' =>
      Rewires (fun _ => False) net net' ∧
        Wired net' (fun a b => ins a b - arrow c o a b + arrow x o a b)
          (fun a b => (if 0 < outs x c then outs a b - arrow x c a b else outs a b)
            + arrow x o a b) := by
  have h1 := rewires_modify (f := fun k => { k with
    outputs := if k.outputs.contains c then replaceFirst c o k.outputs else k.outputs ++ [o] })
    (fun _ => False) net x
  refine .bind_ok (update_of_contains hx _) ?_
  have w1 : Wired (net.modify x fun k => { k with
      outputs := if k.outputs.contains c then replaceFirst c o k.outputs else k.outputs ++ [o] })
      ins (fun a b => (if 0 < outs x c then outs a b - arrow x c a b else outs a b) + arrow x o a b) := by
    apply h.modify_outputs hx fun l => if l.contains c then replaceFirst c o l else l ++ [o]
    · intro b
      have hm := h.mem_outputsOf (a := x) (b := c)
      have hcount := h.outs x b
      rw [edgesOut] at hcount
      by_cases hc : c ∈ net.outputsOf x
      · rw [if_pos (by simpa using hc), count_replaceFirst, if_pos hc, if_pos (hm.mp hc), hcount]
        simp [arrow]
      · rw [if_neg (by simpa using hc), count_append, hcount, if_neg (hm.not.mp hc)]
        grind [arrow, count_singleton]
    · intro a b hax
      simp [arrow, hax]
  refine (replaceInput_yields (fun _ => False) w1 ((h1.contains o).trans ho) hpos x).mono fun net' hn => ?_
  exact ⟨h1.trans hn.1, hn.2⟩

theorem spliceOut_yields (hb : net.Balanced) (hk : net.get? c = some k)
    (hi : k.inputs = [x]) (ho : k.outputs ≠ []) (hx : x ≠ c) : (net.spliceOut c x k.outputs).Yields
      (Edit (· = c) (fun _ => False) (net.bypassed c x) net) := by
  have hxc : x ∈ net.inputsOf c := by rw [inputsOf_of_get? hk, hi]; exact mem_singleton_self x
  have hlive : net.contains x := hb.contains_source hxc
  have hout : ∀ b, net.edgesIn c b = k.outputs.count b := by
    intro b; rw [← hb c b, edgesOut, outputsOf_of_get? hk]
  have hin : ∀ a, net.edgesIn a c = if a = x then 1 else 0 := by
    intro a; rw [edgesIn, inputsOf_of_get? hk, hi, count_singleton]; grind
  have hcc : net.edgesIn c c = 0 := by rw [hin, if_neg (Ne.symm hx)]
  unfold spliceOut
  generalize k.outputs = os at ho hout
  refine .bind (P := fun net' => Rewires (fun _ => False) net net' ∧ Wired net'
    (fun a b => if a = c then net.edgesIn a b - os.count b
      else net.edgesIn a b + if a = x then os.count b else 0)
    (fun a b => if a = x then if b = c then if os = [] then 1 else 0 else net.edgesIn x b + os.count b
      else net.edgesIn a b)) ?_ fun net' hend => .pure ?_
  · apply foldlM_rewires (fun _ => False) os
    · refine hb.wired.congr (fun a b => by simp) fun a b => ?_
      have := hin a
      grind
    intro done o net' hmem hsub hr hw
    have hco : 0 < net.edgesIn c o := by rw [hout]; exact count_pos_iff.mpr hmem
    have hcount : ∀ b, (done ++ [o]).count b ≤ net.edgesIn c b := fun b => hout b ▸ hsub.count_le b
    have hol : net.contains o := contains_of_mem_inputsOf (edgesIn_pos.mp hco)
    refine (splice_step hw ((hr.contains x).trans hlive) ((hr.contains o).trans hol) ?_).mono
      fun net'' h' => ⟨h'.1, h'.2.congr (fun a b => ?_) fun a b => ?_⟩
    · have := hcount o
      grind
    · have := hcount b
      grind [arrow]
    · have h2 : o ≠ c := by rintro rfl; omega
      have h3 : done ++ [o] ≠ [] := by simp
      clear hsub
      grind [arrow]
  · refine hend.1.edit_remove hend.2 (fun a b => ?_) fun a b => ?_
    · have := hout b
      grind [bypassed]
    · have := hin a
      have := hout b
      grind [bypassed]

end Splice

structure PassesOn (ops : List Op) (kept : List CompId) (net : Network) (c x : CompId) : Prop where
  sort : ∃ op ∈ ops, net.op? c = some op
  free : c ∉ kept
  input : net.inputsOf c = [x]
  read : net.outputsOf c ≠ []
  ne : x ≠ c

section PassesOn

variable {ops : List Op} {kept keep : List CompId} {net net' : Network} {c x : CompId}

/-- Components that pass their input on are spliced out one after the other, which keeps what every
single splice keeps; `n` counts them. -/
theorem removePassThrough_keeps (inv : Nat → Network → Prop) (hb : ∀ n net, inv n net → net.Balanced)
    (step : ∀ n net net' c x, inv n net → PassesOn ops kept net c x →
      Edit (· = c) (fun _ => False) (net.bypassed c x) net net' → inv (n + 1) net')
    (h : inv 0 net) : (net.removePassThrough ops kept).Yields fun r => inv r.2 r.1 := by
  refine sweep_yields inv (fun n net1 c k hi hk => ?_) h
  have skip : (pure none : Checked (Option Network)).Yields fun r => ∀ net', r = some net' →
      inv (n + 1) net' := .pure fun _ h => by cases h
  split
  · exact skip
  next hcond =>
  rw [Bool.or_eq_true, not_or, Bool.not_eq_true', Bool.not_eq_false] at hcond
  split
  case h_2 => exact skip
  next x hin =>
  split
  · exact skip
  next hout =>
  simp only [Bool.or_eq_true, decide_eq_true_eq, not_or, List.isEmpty_iff] at hout
  have hpass : PassesOn ops kept net1 c x :=
    { sort := ⟨k.op, by simpa using hcond.1, op?_of_get? hk⟩
      free := by simpa using hcond.2
      input := by rw [inputsOf_of_get? hk, hin]
      read := by rw [outputsOf_of_get? hk]; exact hout.1.1
      ne := hout.2 }
  refine .bind (spliceOut_yields (hb n net1 hi) hk hin hout.1.1 hout.2) fun net2 e => .pure ?_
  rintro _ ⟨⟩
  exact step n net1 net2 c x hi hpass e

section

variable (h : PassesOn ops kept net c x)
include h

theorem PassesOn.mem : x ∈ net.inputsOf c := by
  rw [h.input]
  exact mem_singleton_self x

theorem PassesOn.contains : net.contains c :=
  contains_of_mem_inputsOf h.mem

section

variable (hnot : Op.not ∉ ops) (e : Edit (· = c) (fun _ => False) (net.bypassed c x) net net')
  (hb : net.Balanced) (ha : net.Acyclic)
include hnot e hb ha

theorem PassesOn.sound (hkeep : c ∉ keep) : Sound (· ∈ keep) net net' := by
  have hrep := replaces_bypassed net h.ne
  obtain ⟨rank, hrank, -⟩ := ha.exists_rank hb
  obtain ⟨op, hop, hopc⟩ := h.sort
  refine hrep.sound e hb h.ne hkeep (fun _ h => h.elim) rank (fun a b hab => ?_) (fun v hv => ?_)
    (not_unread_of_mem hb h.mem)
  · obtain ⟨-, -, hab | ⟨rfl, hcb⟩⟩ := (hrep.pos h.ne).mp hab
    · exact hrank a b (edgesIn_pos.mp hab)
    · exact (hrank a c h.mem).trans (hrank c b (edgesIn_pos.mp hcb))
  · rw [hv c op hopc (by simp [h.input]), h.input, op.read_singleton fun hn => hnot (hn ▸ hop)]

theorem PassesOn.progress (hs : Solid keep net) (hkeep : c ∉ keep) : Progress keep 1 net net' := by
  refine (replaces_bypassed net h.ne).progress e (h.sound hnot e hb ha hkeep) hb ha h.ne hs h.contains ?_
  rw [routes_of_fed hb ha (c := c) (ne_nil_of_mem h.mem), h.input]
  simp

end

theorem PassesOn.trim (e : Edit (· = c) (fun _ => False) (net.bypassed c x) net net')
    (hb : net.Balanced) (ha : net.Acyclic) (ht : Trim keep net) : Trim keep net' := by
  refine (replaces_bypassed net h.ne).trim e hb h.ne (fun a hac => ?_) ht
  rw [h.input, mem_singleton] at hac
  obtain ⟨b, hcb⟩ := exists_mem_of_ne_nil _ h.read
  refine ⟨b, ?_, .inr ⟨hac, hb.mem_iff.mp hcb⟩⟩
  rintro rfl
  have := ha.irrefl b
  have := edgesIn_pos.mpr (hb.mem_iff.mp hcb)
  omega

end

theorem removePassThrough_yields (hnot : Op.not ∉ ops)
    (hkept : ∀ c ∈ keep, c ∈ kept ∨ ∃ op, net.op? c = some op ∧ op ∉ ops)
    (hb : net.Balanced) (ha : net.Acyclic) (hs : Solid keep net) :
    (net.removePassThrough ops kept).Yields fun r =>
      Progress keep r.2 net r.1 ∧ (Trim keep net → Trim keep r.1) := by
  refine removePassThrough_keeps (fun n net' => Progress keep n net net' ∧ (Trim keep net → Trim keep net'))
    (fun _ _ h => h.1.balanced) (fun n net1 net2 c x h hpass e => ?_) ⟨.refl hb ha, id⟩
  obtain ⟨hp, ht⟩ := h
  have hkeep : c ∉ keep := by
    intro hm
    rcases hkept c hm with h | ⟨op, hop, hno⟩
    · exact hpass.free h
    obtain ⟨op', hop', h'⟩ := hpass.sort
    have hc := hs.contains hm
    rw [hp.op? hc (hp.keeps c hm hc), hop] at h'
    cases h'
    exact hno hop'
  exact ⟨hp.trans (hpass.progress hnot e hp.balanced hp.acyclic (hp.solid hs) hkeep),
    fun h => hpass.trim e hp.balanced hp.acyclic (ht h)⟩

end PassesOn

/-! ## Repeated edges -/

def Thins (net : Network) (edges : CompId → CompId → Nat) : Prop :=
  ∀ a b, edges a b ≤ net.edgesIn a b ∧ (0 < net.edgesIn a b → 0 < edges a b)

section Thins

variable {net net' : Network} {edges : CompId → CompId → Nat} {touched : CompId → Prop}
  {keep : List CompId}
variable (h : Thins net edges)
include h

theorem Thins.pos {a b : CompId} : 0 < edges a b ↔ a ∈ net.inputsOf b := by
  have := h a b
  rw [← edgesIn_pos]
  omega

section

variable (e : Edit (fun _ => False) touched edges net net')
include e

theorem Thins.sound (hb : net.Balanced) (ha : net.Acyclic)
    (hs : ∀ c, touched c → net.inputsOf c = [] → net.Still net' c) : Sound (· ∈ keep) net net' := by
  obtain ⟨rank, hrank, -⟩ := ha.exists_rank hb
  refine e.sound (fun _ _ h => h) rank (fun a b hab => hrank a b (h.pos.mp hab)) hs ?_ ?_ ?_ ?_ ?_
  · intro c _ hi a
    have h0 : net.edgesIn a c = 0 := by rw [edgesIn, hi]; rfl
    have := (h a c).1
    omega
  · intro c _ hi
    obtain ⟨a, hac⟩ := exists_mem_of_ne_nil _ hi
    exact ⟨a, h.pos.mpr hac⟩
  · intro c op _ _ _ _ hl a b hac hbc
    rw [length_inputsOf_le_one hb.wired] at hl
    have h1 := h a c
    have h2 := h b c
    have h3 := hl a b (by omega) (by omega)
    exact ⟨h3.1, by omega⟩
  · intro v _ c op _ _ _ inputs hi
    exact op.read_of_mem_iff v fun a => (hi a).trans h.pos
  · intro a hun b
    have h0 := hun.edgesIn hb b
    have := (h a b).1
    omega

theorem Thins.majorizes (hb : net.Balanced) (ha : net.Acyclic) : net'.Majorizes net.routes := by
  refine e.majorizes hb ha (fun a => [a]) (fun a => ?_) fun c _ a => ?_
  · rw [tally_cons, tally_nil]
    omega
  · rw [flatMap_singleton']
    exact (h a c).1

theorem Thins.trim (hb : net.Balanced) (ht : Trim keep net) : Trim keep net' := by
  intro c hc ho
  refine ht c (e.contains (fun h => h) ▸ hc) (eq_nil_iff_forall_not_mem.mpr fun b hcb => ?_)
  exact not_mem_nil (ho ▸ e.wired.mem_outputsOf.mpr (h.pos.mpr (hb.mem_iff.mp hcb)))

theorem Thins.progress (s : Sound (· ∈ keep) net net')
    (hb : net.Balanced) (ha : net.Acyclic) (hk : Solid keep net) (ht : Trim keep net) {n : Nat}
    (hn : 0 < n → ∃ a b, edges a b < net.edgesIn a b) : Progress keep n net net' := by
  have hN := h.majorizes e hb ha
  have hle := s.tally_routes_le (fun d hd => hk.contains hd) hN fun _ _ => Nat.le_refl _
  have hcard := e.card_live_le
  refine { s with mass_le := ?_, mass_lt := fun hpos => ?_ }
  · rw [mass, mass]
    omega
  obtain ⟨a, b, hab⟩ := hn hpos
  have hb1 : b ∈ net'.live := by
    rw [mem_live, e.contains fun h => h]
    exact contains_of_mem_inputsOf (edgesIn_pos.mp (by omega : 0 < net.edgesIn a b))
  have hne : net'.inputsOf b ≠ [] :=
    ne_nil_of_mem (e.wired.mem_inputsOf.mpr ((h a b).2 (by omega)))
  have hlt : net'.routes b < net.routes b := by
    calc net'.routes b = tally net'.routes (net'.inputsOf b) :=
          routes_of_fed s.balanced s.acyclic hne
      _ ≤ tally net.routes (net'.inputsOf b) := tally_mono fun d hd =>
          hN.routes_le s.balanced s.acyclic d (s.balanced.contains_source hd)
      _ < tally net.routes (net.inputsOf b) := by
          refine tally_lt_of_count_lt (c := a) (fun d => ?_) ?_ (routes_pos hb ha a)
          · exact (e.wired.ins d b).trans_le (h d b).1
          · exact (e.wired.ins a b).trans_lt hab
      _ ≤ net.routes b := tally_routes_le hb ha b
  have := s.tally_routes_lt (fun d hd => hk.contains hd) hN (fun _ _ => Nat.le_refl _)
    (h.trim e hb ht) (mem_live.mp hb1) hlt
  rw [mass, mass]
  omega

end

end Thins

def thinned (net : Network) (c a b : CompId) : Nat :=
  if a = c then min 1 (net.edgesIn a b) else net.edgesIn a b

theorem thins_thinned (net : Network) (c : CompId) : Thins net (net.thinned c) := by
  intro a b
  grind [thinned]

theorem dropRepeatedOutputs_yields {net : Network} (hb : net.Balanced) {c : CompId} (hc : net.contains c) :
    (net.dropRepeatedOutputs c).Yields fun r =>
      Edit (fun _ => False) (fun o => c ∈ net.inputsOf o) (net.thinned c) net r.1 ∧
        r.2 + (r.1.outputsOf c).length = (net.outputsOf c).length := by
  obtain ⟨k, hk⟩ := contains_iff.mp hc
  have hout : ∀ b, net.edgesIn c b = k.outputs.count b := by
    intro b; rw [← hb c b, edgesOut, outputsOf_of_get? hk]
  unfold dropRepeatedOutputs
  refine .bind_ok (get_of_get? hk) ?_
  -- what is still to come, and one for each output already seen, is what `c` feeds
  refine .bind (Checked.total.foldlM
    (fun rest (s : Network × List CompId × Nat) =>
      (∀ b, rest.count b + s.2.1.count b ≤ net.edgesIn c b) ∧
      (∀ b, 0 < net.edgesIn c b → b ∈ rest ∨ b ∈ s.2.1) ∧
      s.2.1.Nodup ∧ s.2.2 + rest.length + s.2.1.length = k.outputs.length ∧
      Rewires (fun o => c ∈ net.inputsOf o) net s.1 ∧
      Wired s.1
        (fun a b => if a = c then rest.count b + s.2.1.count b else net.edgesIn a b)
        (fun a b => if a = c then rest.count b + s.2.1.count b else net.edgesIn a b))
    (fun o rest s hs => ?_) k.outputs (net, [], 0) ⟨fun b => ?_, fun b hpos => ?_, nodup_nil, ?_,
      .refl _ _, hb.wired.congr (fun a b => ?_) fun a b => ?_⟩) fun s hs => .pure ⟨?_, ?_⟩
  · obtain ⟨net', seen, n⟩ := s
    obtain ⟨hle, hmem, hnd, hlen, hr, hw⟩ := hs
    simp only at hle hmem hnd hlen hr hw
    have hco : 0 < net.edgesIn c o := by
      have := hle o
      rw [count_cons_self] at this
      omega
    have hlive : net.contains o := contains_of_mem_inputsOf (edgesIn_pos.mp hco)
    change (if seen.contains o then _ else _ : Checked (Network × List CompId × Nat)).Yields _
    by_cases ho : o ∈ seen
    · rw [if_pos (by simpa using ho)]
      refine .bind (dropEdge_yields (fun o => c ∈ net.inputsOf o) hw ((hr.contains c).trans hc)
        ((hr.contains o).trans hlive) (edgesIn_pos.mp hco)) fun net'' h' =>
        .pure ⟨fun b => ?_, fun b hpos => ?_, hnd, ?_, hr.trans h'.1,
          h'.2.congr (fun a b => ?_) fun a b => ?_⟩
      · have := hle b
        rw [count_cons] at this
        simp only
        omega
      · have := hmem b hpos
        grind
      · rw [length_cons] at hlen
        simp only
        omega
      · grind [arrow]
      · grind [arrow]
    · rw [if_neg (by simpa using ho)]
      have split : ∀ b, rest.count b + (o :: seen).count b = (o :: rest).count b + seen.count b := by
        intro b
        rw [count_cons, count_cons]
        omega
      refine .pure ⟨fun b => ?_, fun b hpos => ?_, nodup_cons.mpr ⟨ho, hnd⟩, ?_, hr,
        hw.congr (fun a b => ?_) fun a b => ?_⟩
      · rw [split]
        exact hle b
      · have := hmem b hpos
        grind
      · simp only [length_cons] at hlen ⊢
        omega
      · simp only [split]
      · simp only [split]
  · simp [hout]
  · rw [hout, count_pos_iff] at hpos
    exact .inl hpos
  · simp
  · simp only [count_nil, Nat.add_zero]
    grind
  · simp only [count_nil, Nat.add_zero]
    grind
  · obtain ⟨hle, hmem, hnd, -, hr, hw⟩ := hs
    refine hr.edit (hw.congr (fun a b => ?_) fun a b => ?_) <;>
    · have := hle b
      have := hmem b
      have := nodup_iff_count_le_one.mp hnd b
      have := count_pos_iff (a := b) (l := s.2.1)
      grind [thinned]
  · obtain ⟨-, -, -, hlen, -, hw⟩ := hs
    have hperm : (s.1.outputsOf c).Perm s.2.1 := perm_iff_count.mpr fun b => by
      change s.1.edgesOut c b = _
      rw [hw.outs, if_pos rfl, count_nil, Nat.zero_add]
    rw [hperm.length_eq, outputsOf_of_get? hk]
    exact hlen

theorem exists_thinned_lt {net net' : Network} {c : CompId} (hb : net.Balanced) {n : Nat}
    (e : Edit (fun _ => False) (fun o => c ∈ net.inputsOf o) (net.thinned c) net net')
    (hn : n + (net'.outputsOf c).length = (net.outputsOf c).length) (hpos : 0 < n) :
    ∃ a b, net.thinned c a b < net.edgesIn a b := by
  by_contra hall
  simp only [not_exists, Nat.not_lt] at hall
  have hperm : (net'.outputsOf c).Perm (net.outputsOf c) := perm_iff_count.mpr fun b => by
    change net'.edgesOut c b = net.edgesOut c b
    rw [e.wired.outs, hb c b]
    exact Nat.le_antisymm (thins_thinned net c c b).1 (hall c b)
  rw [hperm.length_eq] at hn
  omega

/-- Repeated edges go, component by component, and if there are any, ANDs are counted anew. This keeps
what the two steps keep; `n` counts the edges. -/
theorem dropRepeatedEdges_keeps {net : Network} (inv : Nat → Network → Prop)
    (hb : ∀ n net, inv n net → net.Balanced) (thin : ∀ n m net net' c, inv n net → net.contains c →
      Edit (fun _ => False) (fun o => c ∈ net.inputsOf o) (net.thinned c) net net' →
      m + (net'.outputsOf c).length = (net.outputsOf c).length → inv (n + m) net')
    (recount : ∀ n net net' c, inv n net → net.op? c = some .and →
      Edit (fun _ => False) (· = c) net.edgesIn net net' → (net.inputsOf c = [] → net'.AtRest c) → inv n net')
    (h : inv 0 net) : net.dropRepeatedEdges.Yields fun r => inv r.2 r.1 := by
  unfold dropRepeatedEdges
  refine .bind (Checked.total.foldlM (fun rest (s : Network × Nat) =>
    (∀ c ∈ rest, s.1.contains c = true) ∧ inv s.2 s.1)
    (fun c rest s hs => ?_) net.ids (net, 0) ⟨fun c hc => mem_ids.mp hc, h⟩) fun s hs => ?_
  · obtain ⟨net', total⟩ := s
    obtain ⟨hlive, hi⟩ := hs
    refine .bind (dropRepeatedOutputs_yields (hb _ _ hi) (hlive c mem_cons_self))
      fun r hr => .pure ⟨fun d hd => ?_, thin total r.2 net' r.1 c hi (hlive c mem_cons_self) hr.1 hr.2⟩
    rw [hr.1.contains fun h => h]
    exact hlive d (mem_cons_of_mem _ hd)
  obtain ⟨net1, total⟩ := s
  obtain ⟨-, hi⟩ := hs
  dsimp only
  split
  · next h0 =>
    subst h0
    exact .pure hi
  refine .bind (Checked.total.foldlM (fun rest (net : Network) =>
    (∀ c ∈ rest, net.contains c) ∧ inv total net)
    (fun c rest net2 hs => ?_) net1.ids net1 ⟨fun c hc => mem_ids.mp hc, hi⟩)
    fun net2 hs => .pure hs.2
  obtain ⟨hlive, hi⟩ := hs
  have hrest : ∀ d ∈ rest, net2.contains d = true := (forall_mem_cons.mp hlive).2
  obtain ⟨k, hk⟩ := contains_iff.mp (hlive c mem_cons_self)
  have hop : net2.op c = .ok k.op := by rw [op, get_of_get? hk]; rfl
  refine .bind_ok hop ?_
  split
  · next hand =>
    have hop? : net2.op? c = some .and := by rw [op?_of_get? hk, hand]
    have hb2 := hb _ _ hi
    refine (refresh_yields (· = c) hb2.wired (contains_of_get? hk)
      (fun i hi => hb2.contains_source hi) rfl).mono fun net3 h' => ?_
    obtain ⟨hr, hw, hrest'⟩ := h'
    exact ⟨fun d hd => (hr.contains d).trans (hrest d hd),
      recount total net2 net3 c hi hop? (hr.edit hw) fun hnil => hrest' hop? hnil⟩
  · exact .pure ⟨hrest, hi⟩

section Repeated

variable {net net' : Network} {keep : List CompId} {c : CompId}

theorem thinned_sound (hb : net.Balanced) (ha : net.Acyclic)
    (e : Edit (fun _ => False) (fun o => c ∈ net.inputsOf o) (net.thinned c) net net') :
    Sound (· ∈ keep) net net' :=
  (thins_thinned net c).sound e hb ha fun _ ho hi => absurd hi (ne_nil_of_mem ho)

theorem thins_self (net : Network) : Thins net net.edgesIn := fun _ _ => ⟨Nat.le_refl _, id⟩

theorem recounted_sound (hb : net.Balanced) (ha : net.Acyclic) (hop : net.op? c = some .and)
    (e : Edit (fun _ => False) (· = c) net.edgesIn net net')
    (hrest : net.inputsOf c = [] → net'.AtRest c) : Sound (· ∈ keep) net net' :=
  (thins_self net).sound e hb ha fun d hd hi => by
    cases hd
    exact .inr ⟨hop, fun _ => hrest hi⟩

theorem dropRepeatedEdges_yields (hb : net.Balanced) (ha : net.Acyclic) (hs : Solid keep net)
    (ht : Trim keep net) :
    net.dropRepeatedEdges.Yields fun r => Progress keep r.2 net r.1 ∧ Trim keep r.1 := by
  refine dropRepeatedEdges_keeps (fun n net' => Progress keep n net net' ∧ Trim keep net')
    (fun _ _ h => h.1.balanced) (fun n m net1 net2 c h _ e hm => ?_) (fun n net1 net2 c h hop e hrest => ?_)
    ⟨.refl hb ha, ht⟩
  · obtain ⟨hp, ht⟩ := h
    have hthin := thins_thinned net1 c
    refine ⟨hp.trans (hthin.progress e (thinned_sound hp.balanced hp.acyclic e) hp.balanced hp.acyclic
      (hp.solid hs) ht fun hpos => ?_), hthin.trim e hp.balanced ht⟩
    exact exists_thinned_lt hp.balanced e hm hpos
  · obtain ⟨hp, ht⟩ := h
    have hthin := thins_self net1
    refine ⟨hp.trans (m := 0) (hthin.progress e (recounted_sound hp.balanced hp.acyclic hop e hrest)
      hp.balanced hp.acyclic (hp.solid hs) ht fun h => absurd h (Nat.lt_irrefl 0)), ?_⟩
    exact hthin.trim e hp.balanced ht

end Repeated

end GameNet.Network
