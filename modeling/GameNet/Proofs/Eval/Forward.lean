import GameNet.Proofs.Eval.Counting
import GameNet.Proofs.Extent

/-!
Forward evaluation: it ends, and the counts are right when it does.
-/

namespace GameNet

open List

namespace Network

/-! ## How much one flip can cause -/

section Bursts

variable {net : Network}

/-- Weights by which a flip is heavier than the flips of all its outputs together, and none is heavier
than two to the extent. -/
theorem exists_weight (hb : net.Balanced) (ha : net.Acyclic) :
    ∃ w : CompId → Nat, (∀ c, net.contains c → tally w (net.outputsOf c) < w c) ∧
      ∀ c, w c ≤ Loop.allowance net.extent := by
  obtain ⟨rank, hr, -⟩ := ha.exists_rank hb
  -- the edges that start at a rank of at least `r`
  let above (r : Nat) : Nat :=
    tally (fun d => (net.outputsOf d).length) (net.ids.filter fun d => decide (r ≤ rank d))
  have hmono : ∀ {r s : Nat}, r ≤ s → above s ≤ above r := by
    intro r s hrs
    refine tally_sublist (monotone_filter_right _ fun d hd => ?_)
    simp only [decide_eq_true_eq] at hd ⊢
    omega
  have hown : ∀ c, net.contains c →
      (net.outputsOf c).length + above (rank c + 1) ≤ above (rank c) := by
    intro c hc
    refine tally_le_of_count_le (N := fun d => (net.outputsOf d).length)
      (l := c :: net.ids.filter fun d => decide (rank c + 1 ≤ rank d)) fun d => ?_
    rw [count_cons]
    by_cases hd : d = c
    · subst hd
      have hzero : (net.ids.filter fun e => decide (rank d + 1 ≤ rank e)).count d = 0 :=
        count_eq_zero.mpr fun hm => by simp at hm
      have hone : 0 < (net.ids.filter fun e => decide (rank d ≤ rank e)).count d := by
        rw [count_pos_iff, mem_filter]
        exact ⟨mem_ids.mpr hc, by simp⟩
      rw [hzero]
      simp only [beq_self_eq_true, if_true]
      omega
    · have hne : (c == d) = false := by simpa using Ne.symm hd
      rw [hne]
      simp only [Bool.false_eq_true, if_false, Nat.add_zero]
      refine (monotone_filter_right _ fun e he => ?_).count_le d
      simp only [decide_eq_true_eq] at he ⊢
      omega
  refine ⟨fun c => Loop.allowance (above (rank c)), fun c hc => ?_, fun c => ?_⟩
  · have hout : ∀ o ∈ net.outputsOf c,
        Loop.allowance (above (rank o)) ≤ Loop.allowance (above (rank c + 1)) := fun o ho =>
      Loop.allowance_mono (hmono (hr c o (hb.mem_iff.mp ho)))
    calc tally (fun o => Loop.allowance (above (rank o))) (net.outputsOf c)
        ≤ (net.outputsOf c).length * Loop.allowance (above (rank c + 1)) := tally_le_mul hout
      _ < Loop.allowance (net.outputsOf c).length * Loop.allowance (above (rank c + 1)) :=
        Nat.mul_lt_mul_of_pos_right (Loop.lt_allowance _) (Loop.allowance_pos _)
      _ = Loop.allowance ((net.outputsOf c).length + above (rank c + 1)) :=
        (Loop.allowance_add _ _).symm
      _ ≤ Loop.allowance (above (rank c)) := Loop.allowance_mono (hown c hc)
  refine Loop.allowance_mono ?_
  calc above (rank c)
      ≤ tally (fun d => (net.outputsOf d).length) net.ids := tally_sublist filter_sublist
    _ = tally (fun d => (net.get? d).elim 0 fun k => k.outputs.length) net.ids := by
      refine tally_congr fun d _ => ?_
      cases hk : net.get? d with
      | none => rw [outputsOf, hk]; rfl
      | some k => rw [outputsOf_of_get? hk]; rfl
    _ ≤ net.total fun k => k.outputs.length := tally_le_total net.nodup_ids
    _ ≤ net.extent := by
      rw [extent_eq]
      have : (net.total fun k => k.outputs.length) ≤
          net.total fun k => k.inputs.length + k.outputs.length :=
        total_mono fun k => Nat.le_add_left _ _
      omega

end Bursts

end Network

namespace Forward

open Network

/-! ## Pushing flips -/

def IsStep (d : Int) : Prop := d = 1 ∨ d = -1

def owes (net : Network) (flips : List Flip) (p : CompId) : Int :=
  flips.foldr (fun f n => (net.outputsOf f.1).count p * f.2 + n) 0

section Touch

variable {net0 net : Network} {given : CompId → Int} {stack : List Flip}

theorem owes_cons (f : Flip) (p : CompId) :
    owes net (f :: stack) p = (net.outputsOf f.1).count p * f.2 + owes net stack p := rfl

theorem isStep_mul_sign {k : Component} {d : Int} (hd : IsStep d) (hs : k.Standard) :
    IsStep (d * k.sign) := by
  rcases hd with rfl | rfl <;> rcases hs.sign_cases with h | h <;> rw [h] <;>
    first | exact .inl rfl | exact .inr rfl

theorem wrap_of_isStep (k : Component) {d : Int} (hd : IsStep d) : k.wrap d = d := by
  rcases hd with rfl | rfl <;> exact Component.wrap_of_fits (by decide) (by decide)

structure Touching (net0 : Network) (given : CompId → Int) (w : CompId → Nat) (d : Int) (budget : Nat)
    (rest : List CompId) (s : Network × List Flip) : Prop where
  rest_fed : ∀ o ∈ rest, net0.inputsOf o ≠ []
  recounts : Recounts net0 s.1
  steps : ∀ f ∈ s.2, IsStep f.2 ∧ net0.contains f.1 = true
  ledger : ∃ n, Ledger s.1 given n fun p => rest.count p * d + owes net0 s.2 p
  budget : tally w rest + tally w (s.2.map (·.1)) ≤ budget

theorem Touching.step {w : CompId → Nat} {d : Int} {budget : Nat} {o : CompId} {rest : List CompId}
    {s : Network × List Flip} (h : Touching net0 given w d budget (o :: rest) s)
    (hb : net0.Balanced) (hs : net0.Standard) (hd : IsStep d) :
    (touch d s o).Yields (Touching net0 given w d budget rest) := by
  obtain ⟨net, stack⟩ := s
  obtain ⟨n, hl⟩ := h.ledger
  have hr : Recounts net0 net := h.recounts
  have hfed := h.rest_fed o mem_cons_self
  obtain ⟨k, hk⟩ := contains_iff.mp ((hr.contains o).trans (contains_of_fed hfed))
  have hstd := hr.standard hs o k hk
  have hi : k.inputs ≠ [] := by
    rw [← inputsOf_of_get? hk, hr.inputsOf]
    exact hfed
  obtain ⟨n', hl'⟩ := hl.add (hr.balanced hb) hk hstd hd fun h => absurd h hi
  have hout : net0.outputsOf o = k.outputs := by rw [← hr.outputsOf, outputsOf_of_get? hk]
  have hnet : (net.modify o fun _ => { k with count := k.wrap (k.count + d) }) =
      net.recount1 o (k.wrap (k.count + d)) := modify_eq_recount1 hk rfl
  have hr' := hr.trans (recounts_recount1 net o (k.wrap (k.count + d)))
  have hfed' : ∀ p ∈ rest, net0.inputsOf p ≠ [] := fun p hp => h.rest_fed p (mem_cons_of_mem _ hp)
  have hbud := h.budget
  rw [tally_cons] at hbud
  have hcount : ∀ p, ((o :: rest).count p : Int) * d = rest.count p * d + if p = o then d else 0 := by
    intro p
    rw [count_cons]
    by_cases hp : p = o
    · subst hp
      simp only [beq_self_eq_true, if_true, Nat.cast_add, Nat.cast_one, Int.add_mul, Int.one_mul]
    · have hne : (o == p) = false := by simpa using Ne.symm hp
      simp only [hne, hp, Bool.false_eq_true, if_false, Nat.add_zero, Int.add_zero]
  unfold touch
  refine .bind_ok (get_of_get? hk) ?_
  dsimp only
  rw [hnet]
  split
  · next hcond =>
    rw [Bool.and_eq_true] at hcond
    have hcross : crossed (k.counting (k.wrap (k.count + d))) d = true := hcond.1
    have hsign := isStep_mul_sign hd hstd
    have hwrap : Component.wrap { k with count := k.wrap (k.count + d) } (d * k.sign) = d * k.sign :=
      wrap_of_isStep _ hsign
    rw [hwrap]
    refine .pure ⟨hfed', hr', ?_, ⟨n', ?_⟩, ?_⟩
    · intro f hf
      rcases mem_cons.mp hf with rfl | hf
      · exact ⟨hsign, (hr.contains o).symm.trans (contains_of_get? hk)⟩
      · exact h.steps f hf
    · refine hl'.congr fun p => ?_
      rw [owes_cons, hout, hcount, if_pos hcross]
      dsimp only
      omega
    · rw [map_cons, tally_cons]
      simp only at hbud ⊢
      omega
  · next hcond =>
    refine .pure ⟨hfed', hr', h.steps, ⟨n', ?_⟩, ?_⟩
    · refine hl'.congr fun p => ?_
      -- a turn that nobody reads owes nothing
      have hnone : (k.outputs.count p : Int) *
          (if crossed (k.counting (k.wrap (k.count + d))) d = true then d * k.sign else 0) = 0 := by
        split
        · next hcross =>
          have hnil : k.outputs = [] := by
            by_contra hne
            exact hcond (by rw [Bool.and_eq_true]; exact ⟨hcross, by simpa using hne⟩)
          rw [hnil, count_nil, Nat.cast_zero, Int.zero_mul]
        · rw [Int.mul_zero]
      rw [hcount, hnone]
      dsimp only
      omega
    · simp only at hbud ⊢
      omega

end Touch

/-! ## Turns -/

structure Pushing (net0 : Network) (given : CompId → Int) (s : State) : Prop where
  recounts : Recounts net0 s.net
  steps : ∀ f ∈ s.stack, IsStep f.2 ∧ net0.contains f.1 = true
  ledger : ∃ n, Ledger s.net given n (owes net0 s.stack)

theorem Pushing.turn {net0 : Network} {given : CompId → Int} {w : CompId → Nat} (hb : net0.Balanced)
    (hs : net0.Standard) (hw : ∀ c, net0.contains c → tally w (net0.outputsOf c) < w c) (s : State)
    (h : Pushing net0 given s) : (Forward.turn s).Yields (Guarantee.Reaches (fun s' => Pushing net0 given s' ∧
        tally w (s'.stack.map (·.1)) < tally w (s.stack.map (·.1)))
      fun r => Recounts net0 r.1 ∧ ∃ n, Ledger r.1 given n fun _ => 0) := by
  obtain ⟨net, stack, traffic⟩ := s
  have hr : Recounts net0 net := h.recounts
  obtain ⟨n, hl⟩ := h.ledger
  cases stack with
  | nil => exact .pure ⟨hr, n, hl⟩
  | cons f stack =>
    obtain ⟨c, d⟩ := f
    obtain ⟨hd, hc⟩ := h.steps (c, d) mem_cons_self
    obtain ⟨k, hk⟩ := contains_iff.mp ((hr.contains c).trans hc)
    have hout : net0.outputsOf c = k.outputs := by rw [← hr.outputsOf, outputsOf_of_get? hk]
    unfold Forward.turn
    refine .bind_ok (get_of_get? hk) ?_
    have hstart : Touching net0 given w d (tally w k.outputs + tally w (stack.map (·.1))) k.outputs
        (net, stack) := by
      refine ⟨fun o ho => ?_, hr, (forall_mem_cons.mp h.steps).2,
        ⟨n, hl.congr fun p => ?_⟩, Nat.le_refl _⟩
      · rw [← hout] at ho
        exact ne_nil_of_mem (hb.mem_iff.mp ho)
      · rw [owes_cons, hout]
    refine .bind (Checked.total.foldlM (Touching net0 given w d _)
      (fun o rest s' hs' => hs'.step hb hs hd) k.outputs (net, stack) hstart) fun s' hs' => .pure ?_
    obtain ⟨n', hl'⟩ := hs'.ledger
    refine ⟨⟨hs'.recounts, hs'.steps, n', hl'.congr fun p => ?_⟩, ?_⟩
    · rw [count_nil, Nat.cast_zero, Int.zero_mul, Int.zero_add]
    have hbud := hs'.budget
    have hlt := hw c hc
    rw [hout] at hlt
    rw [tally_nil] at hbud
    rw [map_cons, tally_cons]
    dsimp only
    omega

end Forward

namespace Network

open Forward

section Propagate

variable {net : Network}
variable (hb : net.Balanced) (ha : net.Acyclic) (hs : net.Standard)
include hb ha hs

theorem forward_yields {given n : CompId → Int} {c : CompId} {d : Int} (hc : net.contains c)
    (hd : IsStep d) (hl : Ledger net given n fun p => (net.outputsOf c).count p * d) :
    (net.forward c d).Yields fun r => Recounts net r.1 ∧ ∃ n, Ledger r.1 given n fun _ => 0 := by
  obtain ⟨w, hw, hle⟩ := exists_weight hb ha
  refine Checked.total.run (Pushing net given) (fun s => tally w (s.stack.map (·.1))) _
    (Pushing.turn hb hs hw) ⟨.refl net, fun f hf => ?_, n, hl.congr fun p => ?_⟩ ?_
  · rw [mem_singleton.mp hf]
    exact ⟨hd, hc⟩
  · rw [owes_cons]
    exact (Int.add_zero _).symm
  have h1 := hle c
  have h2 := Loop.allowance_pos net.extent
  have h3 := Loop.allowance_le_add (net.extent + 1) Loop.patience
  have h4 : Loop.allowance (net.extent + 1) = Loop.allowance net.extent + Loop.allowance net.extent := rfl
  simp only [map_cons, map_nil, tally_cons, tally_nil]
  omega

/-- Setting a component without inputs: all counts are right again, it has the new value, and no other
component without inputs has changed. -/
theorem propagate_yields {c : CompId} {value : Bool} (h : net.Tallied) (hc : net.Settable c) :
    (net.propagate c value).Yields fun r => Recounts net r.1 ∧ r.1.Tallied ∧ ∀ d, net.inputsOf d = [] →
        r.1.countAt d = if d = c then countOf value else net.countAt d := by
  obtain ⟨k, hk, hi, hg, h01⟩ := hc
  unfold propagate
  refine .bind_ok (get_of_get? hk) ?_
  split
  · next heq =>
    refine .pure ⟨.refl net, h, fun d _ => ?_⟩
    split
    · next hd => rw [hd, countAt_of_get? hk, heq]
    · rfl
  next hne =>
  have hnet : (net.modify c fun k => { k with count := countOf value }) =
      net.recount1 c (countOf value) := rfl
  have hstd := hs c k hk
  have hr := recounts_recount1 net c (countOf value)
  have hstep : IsStep (if value then 1 else -1) := by
    cases value
    · exact .inr rfl
    · exact .inl rfl
  -- the worth of `c` changes by as much as its count
  have hworth : k.worth (countOf value) - k.worth (net.countAt c) = if value then 1 else -1 := by
    rw [countAt_of_get? hk, Component.worth_of_plain hstd hi hg, Component.worth_of_plain hstd hi hg]
    cases value <;> simp only [countOf] at hne ⊢ <;> grind
  have hl : Ledger (net.recount1 c (countOf value))
      (fun d => if d = c then countOf value else net.countAt d)
      (fun d => if d = c then countOf value else net.countAt d)
      fun p => ((net.recount1 c (countOf value)).outputsOf c).count p * if value then 1 else -1 := by
    refine (h.ledger hb hs).change hb hk (by rw [if_pos hi]) (fun d hd => ?_) fun d => ?_
    · rw [if_neg]
      rintro rfl
      rw [inputsOf_of_get? hk] at hd
      exact hd hi
    rw [hworth, hr.outputsOf, outputsOf_of_get? hk]
    by_cases hd : d = c
    · simp only [hd, if_true]
      omega
    · simp only [hd, if_false]
      omega
  rw [hnet]
  refine .bind (forward_yields (hr.balanced hb) (hr.acyclic ha) (hr.standard hs)
    ((hr.contains c).trans (contains_of_get? hk)) hstep hl) fun r hr' => .pure ?_
  obtain ⟨hr', n, hl'⟩ := hr'
  have hrr := hr.trans hr'
  refine ⟨hrr, hl'.tallied (hrr.balanced hb) (hrr.acyclic ha) (hrr.standard hs), fun d hnil => ?_⟩
  by_cases hd : net.contains d
  · exact hl'.countAt_of_source ((hrr.contains d).trans hd) ((hrr.inputsOf d).trans hnil)
  rw [Bool.not_eq_true, ← get?_eq_none_iff] at hd
  have hdc : d ≠ c := by
    rintro rfl
    rw [hk] at hd
    cases hd
  rw [if_neg hdc, countAt, countAt, hrr.get?_none hd, hd]

theorem propagate_settled {c : CompId} {value : Bool} (h : net.Settled) (hc : net.Settable c) :
    (net.propagate c value).Yields fun r => Recounts net r.1 ∧ r.1.Settled ∧ ∀ d, net.inputsOf d = [] →
        r.1.countAt d = if d = c then countOf value else net.countAt d := by
  refine (propagate_yields hb ha hs h.tallied hc).mono fun r hr => ?_
  obtain ⟨hrec, ht, hcount⟩ := hr
  refine ⟨hrec, hrec.settled h ht fun d k hk hgate hi => ?_, hcount⟩
  obtain ⟨kc, hkc, -, hg, -⟩ := hc
  rw [hcount d (by rw [inputsOf_of_get? hk, hi]), if_neg]
  rintro rfl
  rw [hk] at hkc
  cases hkc
  rw [hg] at hgate
  cases hgate

end Propagate

end Network

end GameNet
