import GameNet.Proofs.Wiring

/-!
Networks as edits make them.

Whatever edits have made a network, the two lists agree, no number has been given out twice and the
components are counted right.
-/

namespace GameNet

open List

namespace Network

variable {net net' : Network} {c d : CompId}

/-! ## Cutting off -/

theorem eq_filter_of_sublist {l l' : List CompId} (hsub : l'.Sublist l)
    (hcount : ∀ x, l'.count x = if x = c then 0 else l.count x) : l' = l.filter (· ≠ c) := by
  have hgone : c ∉ l' := by
    rw [← count_eq_zero, hcount, if_pos rfl]
  have hkept : l'.filter (· ≠ c) = l' := by
    rw [filter_eq_self]
    intro x hx
    simp only [ne_eq, decide_eq_true_eq]
    rintro rfl
    exact hgone hx
  have hperm : l'.Perm (l.filter (· ≠ c)) := by
    rw [perm_iff_count]
    intro x
    rw [hcount]
    split
    · next hx => rw [eq_comm, count_eq_zero]; simp [hx]
    · next hx => rw [count_filter (by simpa using hx)]
  have hfilter : l'.Sublist (l.filter (· ≠ c)) := hkept ▸ hsub.filter _
  exact hfilter.eq_of_length hperm.length_eq

def Thinned (net net' : Network) : Prop :=
  ∀ d, (net'.inputsOf d).Sublist (net.inputsOf d) ∧ (net'.outputsOf d).Sublist (net.outputsOf d)

theorem Thinned.modify (h : Thinned net net') (c : CompId) {f : Component → Component}
    (hi : ∀ k, (f k).inputs.Sublist k.inputs) (ho : ∀ k, (f k).outputs.Sublist k.outputs) :
    Thinned net (net'.modify c f) := by
  intro d
  have hf : ((net'.modify c f).inputsOf d).Sublist (net'.inputsOf d) ∧
      ((net'.modify c f).outputsOf d).Sublist (net'.outputsOf d) := by
    simp only [inputsOf, outputsOf, get?_modify]
    split
    · cases net'.get? d with
      | none => exact ⟨.refl _, .refl _⟩
      | some k => exact ⟨hi k, ho k⟩
    · exact ⟨.refl _, .refl _⟩
  exact ⟨hf.1.trans (h d).1, hf.2.trans (h d).2⟩

theorem isolate_thins (net : Network) (c : CompId) : (net.isolate c).Ensures (Thinned net) := by
  unfold isolate
  refine .bind (P := fun _ => True) (fun _ _ => trivial) fun k _ => .pure ?_
  have hstart : Thinned net net := fun d => ⟨.refl _, .refl _⟩
  have hcut : Thinned net (net.modify c fun k => { k with inputs := [], outputs := [] }) :=
    hstart.modify c (fun k => nil_sublist _) fun k => nil_sublist _
  refine foldl_keeps (fun _ net' => Thinned net net') (fun o _ net' h => ?_) k.outputs _
    (foldl_keeps (fun _ net' => Thinned net net') (fun i _ net' h => ?_) k.inputs _ hcut)
  · exact h.modify o (fun k => erase_sublist) fun k => .refl _
  · exact h.modify i (fun k => .refl _) fun k => erase_sublist

/-- Cutting `c` off removes exactly the edges at `c`; the rest keep their order. -/
theorem isolate_filters (hb : net.Balanced) (hc : net.contains c) :
    (net.isolate c).Yields fun net' => Rewires (fun _ => False) net net' ∧ net'.Balanced ∧
      ∀ d, net'.inputsOf d = (if d = c then [] else (net.inputsOf d).filter (· ≠ c)) ∧
        net'.outputsOf d = if d = c then [] else (net.outputsOf d).filter (· ≠ c) := by
  obtain ⟨net', hnet', hr, hw⟩ := isolate_yields (fun _ => False) hb hc
  have hthin := net.isolate_thins c net' hnet'
  refine ⟨net', hnet', hr, hw.balanced, fun d => ?_⟩
  split
  · next hd =>
    subst hd
    constructor
    · rw [eq_nil_iff_forall_not_mem]
      intro x hx
      rw [hw.mem_inputsOf, if_pos (.inr rfl)] at hx
      exact Nat.lt_irrefl 0 hx
    · rw [eq_nil_iff_forall_not_mem]
      intro x hx
      rw [hw.mem_outputsOf, if_pos (.inl rfl)] at hx
      exact Nat.lt_irrefl 0 hx
  · next hd =>
    refine ⟨eq_filter_of_sublist (hthin d).1 fun x => ?_, eq_filter_of_sublist (hthin d).2 fun x => ?_⟩
    · have hx := hw.ins x d
      simpa only [edgesIn, hd, or_false] using hx
    have hx := hw.outs d x
    rw [← hb d x] at hx
    simpa only [edgesOut, hd, false_or] using hx

end Network

/-! ## Sequences of edits -/

structure Arena where
  net : Network
  issued : List CompId := []
  live : Nat := 0

namespace Arena

inductive Action where
  | add (kind : Kind) (count : Int)
  | link (a b : CompId)
  | unlink (a b : CompId)
  | isolate (c : CompId)
  | remove (c : CompId)

def Admits (s : Arena) : Action → Prop
  | .add _ _ => True
  | .link a b => s.net.contains a ∧ s.net.contains b
  | .unlink a b => s.net.contains a ∧ s.net.contains b
  | .isolate c => s.net.contains c
  | .remove c => s.net.contains c ∧ s.net.inputsOf c = [] ∧ s.net.outputsOf c = []

def perform (s : Arena) : Action → Checked Arena
  | .add kind count =>
    let (c, net) := s.net.add kind count
    pure ⟨net, c :: s.issued, s.live + 1⟩
  | .link a b => do return { s with net := ← s.net.link a b }
  | .unlink a b => do return { s with net := ← s.net.unlink a b }
  | .isolate c => do return { s with net := ← s.net.isolate c }
  | .remove c => pure { s with net := s.net.remove c, live := s.live - 1 }

inductive Reached : Arena → Prop
  | empty (roles : List String) : Reached ⟨{ roles }, [], 0⟩
  | step {s s' : Arena} (a : Action) : Reached s → s.Admits a → s.perform a = .ok s' → Reached s'

structure Sound (s : Arena) : Prop where
  balanced : s.net.Balanced
  live : s.net.ids.length = s.live
  issued : ∀ c ∈ s.issued, c < s.net.capacity

variable {s s' : Arena} {a : Action}

theorem Sound.rewired (h : s.Sound) {x : Checked Network}
    (hx : x.Yields fun net' => Network.Rewires (fun _ => False) s.net net' ∧ net'.Balanced) :
    (do return { s with net := ← x } : Checked Arena).Yields Sound := by
  refine .bind hx fun net' hnet' => .pure ⟨hnet'.2, ?_, ?_⟩
  · have hperm : net'.ids.Perm s.net.ids := Network.perm_ids net'.nodup_ids fun c => by
      rw [Network.mem_ids, hnet'.1.contains]
    rw [hperm.length_eq]
    exact h.live
  · intro c hc
    rw [hnet'.1.capacity]
    exact h.issued c hc

theorem Sound.add (h : s.Sound) (kind : Kind) (count : Int) : (s.perform (.add kind count)).Yields Sound := by
  obtain ⟨net', hadd, hadds⟩ := Network.add_eq s.net kind count
  rw [perform, hadd]
  refine .pure ⟨(hadds.wired h.balanced.wired).balanced, ?_, ?_⟩
  · have hperm : (s.net.capacity :: s.net.ids).Perm net'.ids := by
      refine Network.perm_ids (nodup_cons.mpr ⟨?_, s.net.nodup_ids⟩) fun c => ?_
      · intro hmem
        exact Network.ne_capacity_of_contains (Network.mem_ids.mp hmem) rfl
      · rw [mem_cons, Network.mem_ids, Network.contains, Network.contains, hadds.get?]
        by_cases hc : c = s.net.capacity <;> simp [hc]
    rw [← hperm.length_eq, length_cons, h.live]
  · intro c hc
    rw [hadds.capacity]
    rcases mem_cons.mp hc with rfl | hc
    · exact Nat.lt_succ_self _
    · exact Nat.lt_succ_of_lt (h.issued c hc)

theorem Sound.remove (h : s.Sound) {c : CompId} (hc : s.Admits (.remove c)) :
    (s.perform (.remove c)).Yields Sound := by
  obtain ⟨hlive, hin, hout⟩ := hc
  refine .pure ⟨?_, ?_, ?_⟩
  · -- no list but the empty ones of `c` is lost
    refine ((h.balanced.wired.remove c).congr (fun x y => ?_) fun x y => rfl).balanced
    have hnone : ∀ z, s.net.edgesIn z c = 0 ∧ s.net.edgesIn c z = 0 := by
      intro z
      rw [← h.balanced c z]
      simp [Network.edgesIn, Network.edgesOut, hin, hout]
    have := (hnone x).1
    have := (hnone y).2
    grind
  · have hperm : (s.net.ids.erase c).Perm (s.net.remove c).ids := by
      refine Network.perm_ids (s.net.nodup_ids.erase c) fun d => ?_
      rw [s.net.nodup_ids.mem_erase_iff, Network.mem_ids, Network.contains, Network.contains,
        Network.get?_remove]
      by_cases hd : d = c <;> simp [hd]
    rw [← hperm.length_eq, length_erase_of_mem (Network.mem_ids.mpr hlive), h.live]
  · intro d hd
    have hcap : (s.net.remove c).capacity = s.net.capacity := Array.size_modify
    rw [hcap]
    exact h.issued d hd

theorem Sound.perform (h : s.Sound) (ha : s.Admits a) : (s.perform a).Yields Sound := by
  cases a with
  | add kind count => exact h.add kind count
  | link a b =>
    refine h.rewired ?_
    exact (Network.link_yields _ h.balanced.wired ha.1 ha.2).mono fun _ hl => ⟨hl.1, hl.2.balanced⟩
  | unlink a b =>
    refine h.rewired ?_
    exact (Network.unlink_yields _ h.balanced.wired ha.1 ha.2).mono fun _ hl => ⟨hl.1, hl.2.balanced⟩
  | isolate c =>
    refine h.rewired ?_
    exact (Network.isolate_filters h.balanced ha).mono fun _ hl => ⟨hl.1, hl.2.1⟩
  | remove c => exact h.remove ha

theorem Reached.sound (h : s.Reached) : s.Sound := by
  induction h with
  | empty roles =>
    refine ⟨fun a b => ?_, rfl, forall_mem_nil _⟩
    simp [Network.edgesOut, Network.edgesIn, Network.outputsOf, Network.inputsOf, Network.get?]
  | step a _ ha hs ih => exact (ih.perform ha).ensures _ hs

/-- In every network that edits have made, the components are counted right, a new component gets a
number never given out before, every listed number is that of a component, and every edge is listed
equally often at both ends. Every further edit goes through, and cutting a component off leaves
exactly the edges elsewhere, in their order. -/
theorem edges_of_reached (h : s.Reached) :
    (s.net.size = s.live ∧ s.net.ids.length = s.live) ∧
    (∀ kind count, (s.net.add kind count).1 ∉ s.issued) ∧
    (∀ c d, d ∈ s.net.inputsOf c ∨ d ∈ s.net.outputsOf c → s.net.contains d) ∧
    (∀ a b, (s.net.outputsOf a).count b = (s.net.inputsOf b).count a) ∧
    (∀ a, s.Admits a → ∃ s', s.perform a = .ok s') ∧
    ∀ c, s.net.contains c → ∃ net', s.net.isolate c = .ok net' ∧
      net'.parts = s.net.parts ∧ (∀ d, net'.bare? d = s.net.bare? d) ∧
      ∀ d, net'.inputsOf d = (if d = c then [] else (s.net.inputsOf d).filter (· ≠ c)) ∧
        net'.outputsOf d = if d = c then [] else (s.net.outputsOf d).filter (· ≠ c) := by
  have hs := h.sound
  refine ⟨⟨?_, hs.live⟩, ?_, ?_, hs.balanced, ?_, ?_⟩
  · rw [← Network.length_ids, hs.live]
  · intro kind count hmem
    exact Nat.lt_irrefl _ (hs.issued _ hmem)
  · rintro c d (hd | hd)
    · exact hs.balanced.contains_source hd
    · exact hs.balanced.contains_target hd
  · intro a ha
    obtain ⟨s', hs', -⟩ := hs.perform ha
    exact ⟨s', hs'⟩
  · intro c hc
    obtain ⟨net', hnet', hr, -, hf⟩ := Network.isolate_filters hs.balanced hc
    exact ⟨net', hnet', hr.parts, fun d => hr.bare d id, hf⟩

/-- A component with an edge to itself and two to its neighbour is cut off; a third one's edge stays. -/
theorem edges_of_reached_loop : ∃ s : Arena, s.Reached ∧ s.net.outputsOf 0 = [0, 1, 1] ∧
    s.net.inputsOf 1 = [0, 2, 0] ∧ ∃ net', s.net.isolate 0 = .ok net' ∧
      net'.inputsOf 0 = [] ∧ net'.inputsOf 1 = [2] ∧ net'.outputsOf 2 = [1] := by
  have hor : Reached _ := .step (.add .or 0) (.empty ["robot"]) trivial rfl
  have hand : Reached _ := .step (.add .and 0) hor trivial rfl
  have hnot : Reached _ := .step (.add .not 0) hand trivial rfl
  have hself : Reached _ := .step (.link 0 0) hnot ⟨rfl, rfl⟩ rfl
  have hnext : Reached _ := .step (.link 0 1) hself ⟨rfl, rfl⟩ rfl
  have hside : Reached _ := .step (.link 2 1) hnext ⟨rfl, rfl⟩ rfl
  have h : Reached _ := .step (.link 0 1) hside ⟨rfl, rfl⟩ rfl
  obtain ⟨net', hnet', -, -, hf⟩ := (edges_of_reached h).2.2.2.2.2 0 rfl
  exact ⟨_, h, rfl, rfl, net', hnet', (hf 0).1, (hf 1).1, (hf 2).2⟩

end Arena

end GameNet
