import GameNet.Proofs.Eval.Counting

/-!
Positions of a game: the bits of the bases and the inputs that are chosen.

`reading` gives the components without inputs their values in a position, and `evaluated` is the network
with every count worked out from these values alone.
-/

namespace GameNet.Network

open List

/-! ## Networks that can be played -/

def pairedInput? (net : Network) (l : CompId) : Option CompId :=
  (net.get? l).bind fun k => k.proposition?.bind (·.pairedInput)

/-- What play relies on. Gates without inputs may count anything. -/
structure Primed (net : Network) : Prop where
  balanced : net.Balanced
  acyclic : net.Acyclic
  standard : net.Standard
  tallied : net.Tallied
  bases_nodup : net.bases.Nodup
  base : ∀ b ∈ net.bases, ∃ k, net.get? b = some k ∧ k.hasRole .base = true ∧ k.inputs = [] ∧
    (k.count = 0 ∨ k.count = 1)
  input : ∀ c k, net.get? c = some k → k.hasRole .input = true → k.inputs = [] ∧ k.count = 0
  paired : ∀ l i, net.pairedInput? l = some i →
    ∃ k, net.get? i = some k ∧ k.hasRole .input = true
  transition : ∀ t ∈ net.transitions, net.contains t = true

structure Playable (net : Network) : Prop extends Primed net where
  settled : net.Settled
  tallied := settled.tallied

theorem pairedInput?_of_get? {net : Network} {l : CompId} {k : Component} (hk : net.get? l = some k) :
    net.pairedInput? l = k.proposition?.bind (·.pairedInput) := by
  rw [pairedInput?, hk]
  rfl

theorem paired_of_components {net : Network}
    (h : ∀ x ∈ net.components, ((x.2.proposition?.bind (·.pairedInput)).all fun i =>
      (net.get? i).any (·.hasRole .input)) = true) (l i : CompId) (hl : net.pairedInput? l = some i) :
    ∃ k, net.get? i = some k ∧ k.hasRole .input := by
  cases hk : net.get? l with
  | none =>
    rw [pairedInput?, hk] at hl
    cases hl
  | some k =>
    have hall := h (l, k) (mem_components.mpr hk)
    rw [pairedInput?_of_get? hk] at hl
    rw [hl] at hall
    change (net.get? i).any (·.hasRole .input) = true at hall
    cases hi : net.get? i with
    | none => rw [hi] at hall; cases hall
    | some x => rw [hi] at hall; exact ⟨x, rfl, hall⟩

/-! ## Values in a position -/

def sourceCount (net : Network) (bits : List Bool) (on : List CompId) (c : CompId) : Int :=
  match net.bases.idxOf? c with
  | some i => countOf (bits.getD i false)
  | none => if on.contains c then 1 else net.countAt c

def reading (net : Network) (bits : List Bool) (on : List CompId) (c : CompId) : Bool :=
  match net.bases.idxOf? c with
  | some i => bits.getD i false
  | none => on.contains c || net.valueAt c

/-- The network in which every count is worked out from what the components without inputs read. -/
def evaluated (net : Network) (bits : List Bool) (on : List CompId) : Network :=
  { net with slots := net.slots.mapIdx fun c slot => slot.map fun k =>
      k.counting (if k.inputs = [] then net.sourceCount bits on c
        else (k.inputs.countP (net.eval (net.reading bits on)) : Nat)) }

section Evaluated

variable {net : Network} {bits : List Bool} {on : List CompId} {c : CompId} {k : Component}

theorem get?_evaluated (bits : List Bool) (on : List CompId) (hk : net.get? c = some k) :
    (net.evaluated bits on).get? c = some (k.counting (if k.inputs = [] then
      net.sourceCount bits on c else (k.inputs.countP (net.eval (net.reading bits on)) : Nat))) := by
  rw [get?, evaluated, Array.getElem?_mapIdx]
  rw [get?, Option.join_eq_some_iff] at hk
  rw [hk]
  rfl

theorem recounts_evaluated (net : Network) (bits : List Bool) (on : List CompId) :
    Recounts net (net.evaluated bits on) := by
  refine ⟨rfl, ?_, fun c => ?_⟩
  · rw [capacity, evaluated, Array.size_mapIdx, capacity]
  cases hk : net.get? c with
  | none =>
    rw [get?, evaluated, Array.getElem?_mapIdx]
    rw [get?, Option.join_eq_none_iff] at hk
    rcases hk with hk | hk <;> rw [hk] <;> rfl
  | some k =>
    rw [get?_evaluated bits on hk]
    rfl

theorem countAt_evaluated (hk : net.get? c = some k) (hi : k.inputs = []) :
    (net.evaluated bits on).countAt c = net.sourceCount bits on c := by
  rw [countAt_of_get? (get?_evaluated bits on hk), if_pos hi]
  rfl

def Choosable (net : Network) (on : List CompId) : Prop :=
  ∀ i ∈ on, ∃ k, net.get? i = some k ∧ k.hasRole .input = true

theorem choosable_nil (net : Network) : net.Choosable [] := forall_mem_nil _

theorem Primed.not_mem_bases (h : net.Primed) (hk : net.get? c = some k)
    (hr : k.hasRole .input) : c ∉ net.bases := by
  intro hc
  obtain ⟨k', hk', hbase, -⟩ := h.base c hc
  rw [hk] at hk'
  cases hk'
  simp only [Component.hasRole, beq_iff_eq] at hr hbase
  rw [hr] at hbase
  cases hbase

theorem Primed.idxOf?_getElem (h : net.Primed) {i : Nat} (hi : i < net.bases.length) :
    net.bases.idxOf? net.bases[i] = some i := by
  refine idxOf?_eq_some_iff.mpr ⟨hi, rfl, fun j hj he => ?_⟩
  exact absurd (h.bases_nodup.getElem_inj_iff.mp he) (Nat.ne_of_lt hj)

theorem sourceCount_of_base {i : Nat} (h : net.bases.idxOf? c = some i) :
    net.sourceCount bits on c = countOf (bits.getD i false) := by rw [sourceCount, h]

theorem sourceCount_of_not_mem (h : c ∉ net.bases) :
    net.sourceCount bits on c = if on.contains c then 1 else net.countAt c := by
  rw [sourceCount, idxOf?_eq_none_iff.mpr h]

section

variable (h : net.Primed) (hon : net.Choosable on)
include h hon

theorem Primed.value_source (hk : net.get? c = some k) :
    (k.counting (net.sourceCount bits on c)).value = net.reading bits on c := by
  have hstd := (h.standard c k hk).counting (net.sourceCount bits on c)
  cases hi : net.bases.idxOf? c with
  | some i =>
    obtain ⟨hlt, hget, -⟩ := idxOf?_eq_some_iff.mp hi
    obtain ⟨k', hk', hrole, -⟩ := h.base c (mem_of_getElem hget)
    rw [hk] at hk'
    cases hk'
    rw [hstd.value_of_plain (Component.isGate_of_hasRole hrole), reading, hi]
    change decide (1 ≤ net.sourceCount bits on c) = bits.getD i false
    rw [sourceCount_of_base hi]
    cases bits.getD i false <;> rfl
  | none =>
    have hmem := idxOf?_eq_none_iff.mp hi
    rw [reading, hi, valueAt_of_get? hk]
    by_cases hc : on.contains c = true
    · obtain ⟨k', hk', hrole⟩ := hon c (contains_iff_mem.mp hc)
      rw [hk] at hk'
      cases hk'
      rw [hstd.value_of_plain (Component.isGate_of_hasRole hrole), hc]
      change decide (1 ≤ net.sourceCount bits on c) = _
      rw [sourceCount_of_not_mem hmem, if_pos hc]
      rfl
    · rw [sourceCount_of_not_mem hmem, if_neg hc, countAt_of_get? hk]
      simp only [hc, Bool.false_or]
      rfl

theorem Primed.valueAt_evaluated (hc : net.contains c) :
    (net.evaluated bits on).valueAt c = net.eval (net.reading bits on) c := by
  obtain ⟨k, hk⟩ := contains_iff.mp hc
  rw [valueAt_of_get? (get?_evaluated bits on hk)]
  by_cases hi : k.inputs = []
  · rw [if_pos hi, h.value_source hon hk, eval_of_source _ (by rw [inputsOf_of_get? hk, hi])]
  have hobey := obeys_eval h.balanced h.acyclic (net.reading bits on) c k.op (op?_of_get? hk)
    (by rw [inputsOf_of_get? hk]; exact hi)
  rw [if_neg hi, hobey, inputsOf_of_get? hk]
  exact ((h.standard c k hk).counting _).value_eq_read rfl

theorem Primed.tallied_evaluated : (net.evaluated bits on).Tallied := by
  intro c k' hk' hi
  obtain ⟨n, hk⟩ := (recounts_evaluated net bits on).symm.get? hk'
  have hc := get?_evaluated bits on hk
  rw [hk'] at hc
  have hcount : k'.count = if k'.inputs = [] then net.sourceCount bits on c
      else (k'.inputs.countP (net.eval (net.reading bits on)) : Nat) :=
    congrArg Component.count (Option.some.inj hc)
  rw [hcount, if_neg hi]
  congr 1
  refine countP_congr fun a ha => ?_
  have hlive : net.contains a := by
    refine h.balanced.contains_source (b := c) ?_
    rw [inputsOf_of_get? hk]
    exact ha
  rw [h.valueAt_evaluated hon hlive]

end

theorem Playable.settled_evaluated (h : net.Playable) (hon : net.Choosable on) :
    (net.evaluated bits on).Settled := by
  refine (recounts_evaluated net bits on).settled h.settled (h.toPrimed.tallied_evaluated hon)
    fun c k hk hgate hi => ?_
  -- a gate without inputs is no base and is not chosen
  have hrole : ∀ role, k.hasRole role ≠ true := by
    intro role hr
    rw [Component.isGate_of_hasRole hr] at hgate
    cases hgate
  have hbase : c ∉ net.bases := by
    intro hm
    obtain ⟨kb, hkb, hr, -⟩ := h.base c hm
    rw [hk] at hkb
    cases hkb
    exact hrole .base hr
  have hnot : ¬ on.contains c = true := by
    intro hm
    obtain ⟨ki, hki, hr⟩ := hon c (contains_iff_mem.mp hm)
    rw [hk] at hki
    cases hki
    exact hrole .input hr
  rw [countAt_evaluated hk hi, sourceCount_of_not_mem hbase, if_neg hnot]

/-- Right counts are the evaluated ones as soon as they are so without inputs. -/
theorem Primed.eq_evaluated (h : net.Primed) (hon : net.Choosable on) {net' : Network}
    (hr : Recounts net net') (hs : net'.Tallied)
    (hsrc : ∀ c, net.contains c → net.inputsOf c = [] → net'.countAt c = net.sourceCount bits on c) :
    net' = net.evaluated bits on := by
  have hev := recounts_evaluated net bits on
  refine (h.tallied_evaluated hon).eq_of_sources hs (hev.symm.trans hr) (hev.balanced h.balanced)
    (hev.acyclic h.acyclic) fun c hi => ?_
  cases hk : net.get? c with
  | none => rw [countAt, countAt, hr.get?_none hk, hev.get?_none hk]
  | some k =>
    rw [hev.inputsOf, inputsOf_of_get? hk] at hi
    rw [countAt_evaluated hk hi, hsrc c (contains_of_get? hk) (by rw [inputsOf_of_get? hk, hi])]

end Evaluated

end GameNet.Network
