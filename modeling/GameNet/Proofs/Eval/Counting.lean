import GameNet.Eval.Forward
import GameNet.Proofs.Circuit

/-!
Counts: what it means that they are right, and what an evaluator still owes while they are not.

The `Ledger` holds throughout: what a component has counted and what is still to be added to it is what
its inputs are worth now. Counts are words and may wrap around in between, so a worth is a whole number
and not only 0 or 1.
-/

namespace GameNet

open List Option

/-! ## Components that count -/

namespace Component

def counting (k : Component) (n : Int) : Component := { k with count := n }

structure Standard (k : Component) : Prop where
  reqTrue : k.reqTrue = if k.op = .and then (k.inputs.length : Int) else 1
  reqFalse : k.reqFalse = if k.op = .and then (k.inputs.length : Int) - 1 else 0
  sign : k.sign = if k.op = .not then -1 else 1

instance (k : Component) : Decidable k.Standard :=
  decidable_of_iff (_ ∧ _ ∧ _) ⟨fun h => ⟨h.1, h.2.1, h.2.2⟩, fun h => ⟨h.reqTrue, h.reqFalse, h.sign⟩⟩

/-- How often a count that arrives at `n` has passed the threshold on the way up. A word comes by its
threshold once in each turn around. -/
def steps (k : Component) (n : Int) : Int :=
  if k.inputs.length < 2147483648 then (n - k.reqTrue) / 4294967296 + 1
  else if k.reqTrue ≤ n then 1 else 0

def worth (k : Component) (n : Int) : Int :=
  let up := if k.inputs = [] then if k.reqTrue ≤ n then 1 else 0 else k.steps n
  if k.sign < 0 then 1 - up else up

section

variable {k : Component} {n : Int}

theorem Standard.reqFalse_eq (h : k.Standard) : k.reqFalse = k.reqTrue - 1 := by
  rw [h.reqFalse, h.reqTrue]
  split <;> rfl

theorem Standard.sign_cases (h : k.Standard) : k.sign = 1 ∨ k.sign = -1 := by
  rw [h.sign]
  split
  · exact .inr rfl
  · exact .inl rfl

theorem Standard.reqTrue_bounds (h : k.Standard) (hi : k.inputs ≠ []) :
    0 < k.reqTrue ∧ k.reqTrue ≤ k.inputs.length := by
  have hpos := length_pos_iff.mpr hi
  rw [h.reqTrue]
  split <;> omega

theorem Standard.counting (h : k.Standard) (n : Int) : (k.counting n).Standard :=
  ⟨h.reqTrue, h.reqFalse, h.sign⟩

theorem wrap_wrap_add (k : Component) (n d : Int) : k.wrap (k.wrap n + d) = k.wrap (n + d) := by
  by_cases h : k.inputs.length < 2147483648
  · rw [wrap_of_short _ h, wrap_of_short _ h, wrap_of_short _ h, Int.bmod_add_bmod]
  · rw [wrap_of_long _ h, wrap_of_long _ h, wrap_of_long _ h]

section

variable (h : k.Standard) (hi : k.inputs ≠ []) (lo : 0 ≤ n) (hn : n ≤ k.inputs.length)
include h hi lo hn

theorem steps_of_le_length : k.steps n = if k.reqTrue ≤ n then 1 else 0 := by
  obtain ⟨h0, h1⟩ := h.reqTrue_bounds hi
  unfold steps
  split
  · split <;> omega
  · rfl

theorem worth_of_le_length (hc : k.count = n) : k.worth n = if k.value = true then 1 else 0 := by
  simp only [worth, if_neg hi, steps_of_le_length h hi lo hn, value, hc]
  by_cases hs : k.sign < 0 <;> by_cases hr : k.reqTrue ≤ n <;> simp [hs, hr]

end

theorem worth_of_source (hi : k.inputs = []) (hc : k.count = n) :
    k.worth n = if k.value = true then 1 else 0 := by
  simp only [worth, if_pos hi, value, hc]
  by_cases hs : k.sign < 0 <;> by_cases hr : k.reqTrue ≤ n <;> simp [hs, hr]

section

variable (h : k.Standard)
include h

theorem Standard.plain (hg : k.isGate = false) : k.reqTrue = 1 ∧ k.reqFalse = 0 ∧ k.sign = 1 := by
  have hand : k.op ≠ .and := by
    intro hop
    rw [isGate, hop] at hg
    cases hg
  have hnot : k.op ≠ .not := by
    intro hop
    rw [isGate, hop] at hg
    cases hg
  exact ⟨by rw [h.reqTrue, if_neg hand], by rw [h.reqFalse, if_neg hand], by rw [h.sign, if_neg hnot]⟩

theorem Standard.value_eq_read {v : CompId → Bool}
    (hc : k.count = (k.inputs.countP v : Nat)) : k.value = k.op.read k.inputs v := by
  have hle := countP_le_length (p := v) (l := k.inputs)
  have hall : decide ((k.inputs.length : Int) ≤ (k.inputs.countP v : Nat)) = k.inputs.all v := by
    rw [Bool.eq_iff_iff, decide_eq_true_eq, List.all_eq_true, ← countP_eq_length]
    omega
  have hany : decide ((1 : Int) ≤ (k.inputs.countP v : Nat)) = k.inputs.any v := by
    rw [Bool.eq_iff_iff, decide_eq_true_eq, List.any_eq_true, ← countP_pos_iff]
    omega
  rw [value, hc, h.reqTrue, h.sign]
  cases hop : k.op
  case and => simpa [Op.read] using hall
  all_goals simpa [Op.read] using hany

theorem Standard.value_of_plain (hg : k.isGate = false) : k.value = decide (1 ≤ k.count) := by
  obtain ⟨hr, -, hs⟩ := h.plain hg
  rw [value, hr, hs]
  simp

theorem worth_of_plain (hi : k.inputs = []) (hg : k.isGate = false) (n : Int) :
    k.worth n = if 1 ≤ n then 1 else 0 := by
  obtain ⟨hr, -, hs⟩ := h.plain hg
  simp [worth, hi, hr, hs]

theorem steps_succ (hi : k.inputs ≠ []) (n : Int) :
    k.steps (n + 1) = k.steps n + if k.wrap (n + 1) = k.reqTrue then 1 else 0 := by
  obtain ⟨h0, h1⟩ := h.reqTrue_bounds hi
  by_cases hl : k.inputs.length < 2147483648
  · rw [wrap_of_short _ hl, steps, steps, if_pos hl, if_pos hl, Int.bmod_def]
    simp only [Int32.size]
    split <;> split <;> omega
  · rw [wrap_of_long _ hl, steps, steps, if_neg hl, if_neg hl]
    split <;> split <;> split <;> omega

theorem steps_pred (hi : k.inputs ≠ []) (n : Int) :
    k.steps (n - 1) = k.steps n - if k.wrap (n - 1) = k.reqFalse then 1 else 0 := by
  obtain ⟨h0, h1⟩ := h.reqTrue_bounds hi
  rw [h.reqFalse_eq]
  by_cases hl : k.inputs.length < 2147483648
  · rw [wrap_of_short _ hl, steps, steps, if_pos hl, if_pos hl, Int.bmod_def]
    simp only [Int32.size]
    split <;> split <;> omega
  · rw [wrap_of_long _ hl, steps, steps, if_neg hl, if_neg hl]
    split <;> split <;> split <;> omega

theorem worth_add (hi : k.inputs ≠ []) {d : Int} (hd : d = 1 ∨ d = -1) (n : Int) :
    k.worth (n + d) = k.worth n +
      if Forward.crossed (k.counting (k.wrap (n + d))) d = true then d * k.sign else 0 := by
  simp only [worth, if_neg hi, Forward.crossed, counting]
  rcases hd with rfl | rfl
  · rw [steps_succ h hi]
    rcases h.sign_cases with hs | hs <;> by_cases hc : k.wrap (n + 1) = k.reqTrue
    · simp [hs, hc]
    · simp [hs, hc]
    · simp [hs, hc]
      omega
    · simp [hs, hc]
  · rw [← Int.sub_eq_add_neg, steps_pred h hi]
    rcases h.sign_cases with hs | hs <;> by_cases hc : k.wrap (n - 1) = k.reqFalse
    · simp [hs, hc]
      omega
    · simp [hs, hc]
    · simp [hs, hc]
      omega
    · simp [hs, hc]

end

end

end Component

namespace Network

/-! ## The same network with other counts -/

structure Recounts (net net' : Network) : Prop where
  parts : net'.parts = net.parts
  capacity : net'.capacity = net.capacity
  slot : ∀ c, (net'.get? c).map (·.counting 0) = (net.get? c).map (·.counting 0)

section Recounts

variable {net net' net'' : Network} {c : CompId} {k : Component}

theorem Recounts.refl (net : Network) : Recounts net net := ⟨rfl, rfl, fun _ => rfl⟩

theorem Recounts.symm (h : Recounts net net') : Recounts net' net :=
  ⟨h.parts.symm, h.capacity.symm, fun c => (h.slot c).symm⟩

theorem Recounts.trans (h : Recounts net net') (h' : Recounts net' net'') : Recounts net net'' :=
  ⟨h'.parts.trans h.parts, h'.capacity.trans h.capacity, fun c => (h'.slot c).trans (h.slot c)⟩

theorem Recounts.get? (h : Recounts net net') (hk : net.get? c = some k) :
    ∃ n, net'.get? c = some (k.counting n) := by
  have hs := h.slot c
  rw [hk, map_some] at hs
  obtain ⟨k', hk', he⟩ := map_eq_some_iff.mp hs
  refine ⟨k'.count, ?_⟩
  rw [hk']
  have hc : k'.counting 0 = k.counting 0 := he
  have : (k'.counting 0).counting k'.count = (k.counting 0).counting k'.count := by rw [hc]
  exact congrArg some this

theorem recounts_modify (net : Network) (c : CompId) {f : Component → Component}
    (hf : ∀ k, (f k).counting 0 = k.counting 0) : Recounts net (net.modify c f) :=
  ⟨rfl, capacity_modify net c f, fun d => map_get?_modify net c d _ hf⟩

def recount1 (net : Network) (c : CompId) (n : Int) : Network := net.modify c (·.counting n)

theorem recounts_recount1 (net : Network) (c : CompId) (n : Int) : Recounts net (net.recount1 c n) :=
  recounts_modify net c fun _ => rfl

theorem get?_recount1_self {n : Int} (hk : net.get? c = some k) :
    (net.recount1 c n).get? c = some (k.counting n) := by
  rw [recount1, get?_modify, if_pos rfl, hk]
  rfl

theorem get?_recount1_of_ne {n : Int} {d : CompId} (h : d ≠ c) : (net.recount1 c n).get? d = net.get? d := by
  rw [recount1, get?_modify, if_neg h]

theorem modify_eq_recount1 {n : Int} {k' : Component} (hk : net.get? c = some k)
    (hk' : k' = k.counting n) : (net.modify c fun _ => k') = net.recount1 c n := by
  refine modify_congr fun k0 hk0 => ?_
  rw [hk] at hk0
  cases hk0
  exact hk'

section

variable (h : Recounts net net')
include h

theorem Recounts.get?_none (hk : net.get? c = none) : net'.get? c = none := by
  have hs := h.slot c
  rwa [hk, map_none, map_eq_none_iff] at hs

theorem Recounts.elim_eq {α : Type} (a : α) (f : Component → α) (c : CompId)
    (hf : ∀ k n, f (k.counting n) = f k := by intro k n; rfl) :
    (net'.get? c).elim a f = (net.get? c).elim a f := by
  cases hk : net.get? c with
  | none => rw [h.get?_none hk]
  | some k =>
    obtain ⟨n, hk'⟩ := h.get? hk
    rw [hk']
    exact hf k n

theorem Recounts.inputsOf (c : CompId) : net'.inputsOf c = net.inputsOf c := h.elim_eq [] Component.inputs c

theorem Recounts.outputsOf (c : CompId) :
    net'.outputsOf c = net.outputsOf c := h.elim_eq [] Component.outputs c

theorem Recounts.contains (c : CompId) : net'.contains c = net.contains c := by
  have hs := congrArg Option.isSome (h.slot c)
  rwa [isSome_map, isSome_map] at hs

theorem Recounts.op? (c : CompId) : net'.op? c = net.op? c := by
  cases hk : net.get? c with
  | none => rw [Network.op?, Network.op?, h.get?_none hk, hk]
  | some k =>
    obtain ⟨n, hk'⟩ := h.get? hk
    rw [op?_of_get? hk', op?_of_get? hk]
    rfl

theorem Recounts.balanced (hb : net.Balanced) : net'.Balanced := by
  intro a b
  rw [edgesOut, edgesIn, h.inputsOf, h.outputsOf]
  exact hb a b

theorem Recounts.feeds : net'.Feeds = net.Feeds := by
  funext a b
  rw [Feeds, Feeds, h.inputsOf]

theorem Recounts.acyclic (ha : net.Acyclic) : net'.Acyclic := by
  rw [Acyclic, h.feeds]
  exact ha

theorem Recounts.eq_of_count
    (hc : ∀ c k k', net.get? c = some k → net'.get? c = some k' → k'.count = k.count) : net' = net := by
  have hslots : net'.slots = net.slots := by
    apply Array.ext_getElem?
    intro c
    have hget : net'.get? c = net.get? c := by
      cases hk : net.get? c with
      | none => exact h.get?_none hk
      | some k =>
        obtain ⟨n, hk'⟩ := h.get? hk
        have hn : n = k.count := hc c k _ hk hk'
        rw [hk', hn]
        rfl
    by_cases hlt : c < net.slots.size
    · have hlt' : c < net'.slots.size := Nat.lt_of_lt_of_eq hlt h.capacity.symm
      rw [Network.get?, Network.get?, Array.getElem?_eq_getElem hlt, Array.getElem?_eq_getElem hlt'] at hget
      rw [Array.getElem?_eq_getElem hlt, Array.getElem?_eq_getElem hlt']
      exact congrArg some hget
    · have hle := Nat.le_of_not_lt hlt
      rw [Array.getElem?_eq_none hle, Array.getElem?_eq_none (h.capacity.le.trans hle)]
  have split : ∀ net : Network, net = { net.parts with slots := net.slots } := fun _ => rfl
  rw [split net', h.parts, hslots, ← split]

end

end Recounts

/-! ## Right counts -/

def valueAt (net : Network) (c : CompId) : Bool := (net.get? c).elim false Component.value

def Settled (net : Network) : Prop :=
  ∀ c k, net.get? c = some k → k.isGate = true ∨ k.inputs ≠ [] →
    k.count = (k.inputs.countP net.valueAt : Nat)

/-- Everything that has inputs has counted those that are true. What has none counts anything. -/
def Tallied (net : Network) : Prop :=
  ∀ c k, net.get? c = some k → k.inputs ≠ [] → k.count = (k.inputs.countP net.valueAt : Nat)

def Standard (net : Network) : Prop := ∀ c k, net.get? c = some k → k.Standard

instance (net : Network) : Decidable net.Settled := decidable_of_iff' _ forall_components

instance (net : Network) : Decidable net.Standard := decidable_of_iff' _ forall_components

theorem Settled.tallied {net : Network} (h : net.Settled) : net.Tallied :=
  fun c k hk hi => h c k hk (.inr hi)

theorem Tallied.settled {net : Network} (h : net.Tallied)
    (hg : ∀ c k, net.get? c = some k → k.isGate → k.inputs = [] → k.count = 0) : net.Settled := by
  intro c k hk hor
  by_cases hi : k.inputs = []
  · rw [hg c k hk (hor.resolve_right fun hne => hne hi) hi, hi]
    rfl
  · exact h c k hk hi

theorem Recounts.standard {net net' : Network} (h : Recounts net net') (hs : net.Standard) :
    net'.Standard := by
  intro c k' hk'
  obtain ⟨n, hk⟩ := h.symm.get? hk'
  exact (hs c _ hk).counting k'.count

def sumOf (f : CompId → Int) (l : List CompId) : Int := l.foldr (fun a n => f a + n) 0

section Sums

variable {f g : CompId → Int} {l : List CompId}

theorem sumOf_congr (h : ∀ a ∈ l, f a = g a) : sumOf f l = sumOf g l := by
  induction l with
  | nil => rfl
  | cons a l ih =>
    change f a + sumOf f l = g a + sumOf g l
    rw [h a mem_cons_self, ih (forall_mem_cons.mp h).2]

theorem sumOf_change {c : CompId} (d : Int) (hc : g c = f c + d) (h : ∀ a, a ≠ c → g a = f a) :
    sumOf g l = sumOf f l + l.count c * d := by
  induction l with
  | nil => simp [sumOf]
  | cons a l ih =>
    change g a + sumOf g l = f a + sumOf f l + _
    rw [ih, count_cons]
    by_cases ha : a = c
    · subst ha
      rw [hc]
      simp only [beq_self_eq_true, if_true, Nat.cast_add, Nat.cast_one, Int.add_mul]
      omega
    · rw [h a ha]
      simp [ha]
      omega

theorem sumOf_value (p : CompId → Bool) :
    sumOf (fun a => if p a = true then 1 else 0) l = (l.countP p : Nat) := by
  induction l with
  | nil => rfl
  | cons a l ih =>
    change (if p a = true then 1 else 0) + sumOf _ l = _
    rw [ih, countP_cons]
    split <;> omega

end Sums

def worth (net : Network) (n : CompId → Int) (c : CompId) : Int :=
  (net.get? c).elim 0 fun k => k.worth (n c)

/-- The exact counts `n` are stored as words, and with what is `owed` they are what they should be: the
given one at a component without inputs, and else the sum of what the inputs are worth. -/
structure Ledger (net : Network) (given n owed : CompId → Int) : Prop where
  stored : ∀ c k, net.get? c = some k → k.count = if k.inputs = [] then n c else k.wrap (n c)
  due : ∀ c k, net.get? c = some k →
    n c + owed c = if k.inputs = [] then given c else sumOf (net.worth n) k.inputs

section Ledger

variable {net : Network} {given n owed : CompId → Int} {c : CompId} {k : Component}

theorem Recounts.worth {net' : Network} (h : Recounts net net') (n : CompId → Int) :
    net'.worth n = net.worth n :=
  funext fun c => h.elim_eq 0 (fun k => k.worth (n c)) c

section

variable (h : Ledger net given n owed) {c : CompId} {k : Component}
include h

theorem Ledger.congr {owed' : CompId → Int} (he : ∀ c, owed c = owed' c) : Ledger net given n owed' := by
  rwa [← funext he]

/-- One component gets another count. Its outputs are then owed the change of its worth. -/
theorem Ledger.change {given' owed' : CompId → Int} {m stored : Int}
    (hb : net.Balanced) (hk : net.get? c = some k) (hm : stored = if k.inputs = [] then m else k.wrap m)
    (hg : ∀ d, net.inputsOf d ≠ [] → given' d = given d) (ho : ∀ d, (if d = c then m else n d) + owed' d =
      n d + owed d + k.outputs.count d * (k.worth m - k.worth (n c)) + (given' d - given d)) :
    Ledger (net.recount1 c stored) given' (fun d => if d = c then m else n d) owed' := by
  have hworth : ∀ d, (net.recount1 c stored).worth (fun d => if d = c then m else n d) d =
      net.worth n d + if d = c then k.worth m - k.worth (n c) else 0 := by
    intro d
    rw [(recounts_recount1 net c stored).worth]
    by_cases hd : d = c
    · subst hd
      simp only [worth, hk, elim_some, if_true]
      omega
    · simp only [worth, if_neg hd, Int.add_zero]
  constructor
  · intro d kd hkd
    by_cases hd : d = c
    · subst hd
      rw [get?_recount1_self hk] at hkd
      cases hkd
      rw [if_pos rfl]
      exact hm
    · rw [get?_recount1_of_ne hd] at hkd
      rw [if_neg hd]
      exact h.stored d kd hkd
  intro d kd hkd
  rw [ho d]
  -- the inputs are those of the old network
  obtain ⟨x, hx⟩ := (recounts_recount1 net c stored).symm.get? hkd
  have hdue := h.due d _ hx
  change n d + owed d = if kd.inputs = [] then given d else _ at hdue
  have hcount : k.outputs.count d = kd.inputs.count c := by
    have := hb c d
    rwa [edgesOut, edgesIn, outputsOf_of_get? hk, inputsOf_of_get? hx] at this
  rw [hcount]
  split
  · next hi =>
    rw [if_pos hi] at hdue
    simp only [hi, count_nil, Nat.cast_zero, Int.zero_mul]
    omega
  next hi =>
  rw [if_neg hi] at hdue
  rw [hdue, hg d (by rwa [inputsOf_of_get? hx]), Int.sub_self, Int.add_zero]
  refine (sumOf_change _ ?_ fun a hac => ?_).symm
  · rw [hworth, if_pos rfl]
  · rw [hworth, if_neg hac, Int.add_zero]

theorem Ledger.aim (hi : net.inputsOf c = []) (x : Int) : Ledger net (fun d => if d = c then x else given d) n
      fun d => owed d + if d = c then x - given c else 0 := by
  refine ⟨h.stored, fun d k hk => ?_⟩
  have hdue := h.due d k hk
  by_cases hd : d = c
  · subst hd
    rw [inputsOf_of_get? hk] at hi
    rw [if_pos hi] at hdue
    simp only [if_true, hi]
    omega
  · simp only [hd, if_false, Int.add_zero]
    exact hdue

theorem Ledger.add {d : Int} (hb : net.Balanced) (hk : net.get? c = some k) (hs : k.Standard)
    (hd : d = 1 ∨ d = -1) (hsrc : k.inputs = [] →
      k.isGate = false ∧ (k.count = 0 ∨ k.count = 1) ∧ (k.count + d = 0 ∨ k.count + d = 1)) :
    ∃ n', Ledger (net.recount1 c (k.wrap (k.count + d))) given n' fun p =>
      owed p - (if p = c then d else 0) + k.outputs.count p *
        if Forward.crossed (k.counting (k.wrap (k.count + d))) d = true then d * k.sign else 0 := by
  obtain ⟨hwrap, hworth⟩ :
      (k.wrap (k.count + d) = if k.inputs = [] then n c + d else k.wrap (n c + d)) ∧
        k.worth (n c + d) = k.worth (n c) + if Forward.crossed (k.counting (k.wrap (k.count + d))) d = true
          then d * k.sign else 0 := by
    have hstored := h.stored c k hk
    by_cases hi : k.inputs = []
    · rw [if_pos hi] at hstored ⊢
      obtain ⟨hg, hc, hc'⟩ := hsrc hi
      have hwrap : k.wrap (k.count + d) = k.count + d := by
        rcases hc' with h0 | h1
        · rw [h0]
          exact Component.wrap_of_fits (by decide) (by decide)
        · rw [h1]
          exact Component.wrap_of_fits (by decide) (by decide)
      obtain ⟨hr, hf, hsign⟩ := hs.plain hg
      rw [hwrap, ← hstored, Component.worth_of_plain hs hi hg, Component.worth_of_plain hs hi hg]
      simp only [Forward.crossed, Component.counting, hr, hf, hsign]
      grind
    · rw [if_neg hi] at hstored ⊢
      rw [hstored, Component.wrap_wrap_add]
      exact ⟨rfl, Component.worth_add hs hi hd (n c)⟩
  refine ⟨fun p => if p = c then n c + d else n p, h.change hb hk hwrap (fun _ _ => rfl) fun p => ?_⟩
  rw [hworth, add_sub_cancel_left, Int.sub_self, Int.add_zero]
  by_cases hp : p = c
  · simp only [hp, if_true]
    omega
  · simp only [hp, if_false]
    omega

end

def countAt (net : Network) (c : CompId) : Int := (net.get? c).elim 0 Component.count

theorem countAt_of_get? (hk : net.get? c = some k) : net.countAt c = k.count := by rw [countAt, hk]; rfl

theorem valueAt_of_get? (hk : net.get? c = some k) : net.valueAt c = k.value := by rw [valueAt, hk]; rfl

theorem Tallied.count_bounds (h : net.Tallied)
    (hk : net.get? c = some k) (hi : k.inputs ≠ []) : 0 ≤ k.count ∧ k.count ≤ k.inputs.length := by
  rw [h c k hk hi]
  have := countP_le_length (p := net.valueAt) (l := k.inputs)
  omega

theorem Settled.countAt_of_gate (h : net.Settled)
    (hk : net.get? c = some k) (hg : k.isGate) (hi : k.inputs = []) : net.countAt c = 0 := by
  rw [countAt_of_get? hk, h c k hk (.inl hg), hi]
  rfl

theorem Tallied.ledger (h : net.Tallied) (hb : net.Balanced) (hs : net.Standard) :
    Ledger net net.countAt net.countAt fun _ => 0 := by
  have hworth : ∀ a, net.contains a →
      net.worth net.countAt a = if net.valueAt a = true then 1 else 0 := by
    intro a ha
    obtain ⟨k, hk⟩ := contains_iff.mp ha
    rw [worth, hk, elim_some, countAt_of_get? hk, valueAt_of_get? hk]
    by_cases hi : k.inputs = []
    · exact Component.worth_of_source hi rfl
    · obtain ⟨lo, hn⟩ := h.count_bounds hk hi
      exact Component.worth_of_le_length (hs a k hk) hi lo hn rfl
  constructor
  · intro c k hk
    rw [countAt_of_get? hk]
    split
    · rfl
    next hi =>
    obtain ⟨lo, hn⟩ := h.count_bounds hk hi
    refine (Component.wrap_of_le_length (Int.le_trans ?_ lo) hn).symm
    decide
  · intro c k hk
    rw [countAt_of_get? hk, Int.add_zero]
    split
    · rfl
    next hi =>
    rw [h c k hk hi, ← sumOf_value]
    refine sumOf_congr fun a ha => (hworth a ?_).symm
    exact hb.contains_source (b := c) (by rwa [inputsOf_of_get? hk])

theorem Ledger.countAt_of_source (h : Ledger net given n fun _ => 0)
    (hc : net.contains c) (hi : net.inputsOf c = []) : net.countAt c = given c := by
  obtain ⟨k, hk⟩ := contains_iff.mp hc
  rw [inputsOf_of_get? hk] at hi
  have hst := h.stored c k hk
  have hdue := h.due c k hk
  rw [if_pos hi] at hst hdue
  rw [countAt_of_get? hk, hst, ← hdue, Int.add_zero]

theorem Ledger.tallied (h : Ledger net given n fun _ => 0) (hb : net.Balanced) (ha : net.Acyclic)
    (hs : net.Standard) : net.Tallied := by
  have hsum : ∀ c k, net.get? c = some k → k.inputs ≠ [] →
      (∀ a ∈ k.inputs, net.worth n a = if net.valueAt a = true then 1 else 0) →
      k.count = (k.inputs.countP net.valueAt : Nat) ∧ n c = k.count := by
    intro c k hk hi hin
    have hdue := h.due c k hk
    rw [if_neg hi, Int.add_zero, sumOf_congr hin, sumOf_value] at hdue
    have hst := h.stored c k hk
    have hle := countP_le_length (p := net.valueAt) (l := k.inputs)
    rw [if_neg hi, hdue, Component.wrap_of_le_length ?_ (by omega)] at hst
    · exact ⟨hst, by rw [hdue, hst]⟩
    · change (-2147483648 : Int) ≤ _
      omega
  -- once its inputs are worth their values, so is a component
  have hworth : ∀ c, net.contains c → net.worth n c = if net.valueAt c = true then 1 else 0 := by
    intro c hc
    induction c using ha.induct_inputs hb with
    | step c ih =>
      obtain ⟨k, hk⟩ := contains_iff.mp hc
      have hst := h.stored c k hk
      rw [worth, hk, elim_some, valueAt_of_get? hk]
      by_cases hi : k.inputs = []
      · rw [if_pos hi] at hst
        exact Component.worth_of_source hi hst
      have hin : ∀ a ∈ k.inputs, a ∈ net.inputsOf c := fun a h => by rwa [inputsOf_of_get? hk]
      obtain ⟨hcount, hn⟩ := hsum c k hk hi fun a ha =>
        ih a (hin a ha) (hb.contains_source (hin a ha))
      have hle := countP_le_length (p := net.valueAt) (l := k.inputs)
      exact Component.worth_of_le_length (hs c k hk) hi (by omega) (by omega) hn.symm
  intro c k hk hi
  refine (hsum c k hk hi fun a ha => hworth a ?_).1
  exact hb.contains_source (b := c) (by rwa [inputsOf_of_get? hk])

end Ledger

/-! ## Setting components without inputs -/

def Settable (net : Network) (c : CompId) : Prop :=
  ∃ k, net.get? c = some k ∧ k.inputs = [] ∧ k.isGate = false ∧ (k.count = 0 ∨ k.count = 1)

def aimed (values : List (CompId × Bool)) (given : CompId → Int) : CompId → Int :=
  values.foldl (fun given x d => if d = x.1 then countOf x.2 else given d) given

theorem countOf_cases (value : Bool) : countOf value = 0 ∨ countOf value = 1 := by
  cases value
  · exact .inl rfl
  · exact .inr rfl

section Aimed

variable {values : List (CompId × Bool)} {given given' : CompId → Int} {d : CompId}

theorem aimed_cons (x : CompId × Bool) :
    aimed (x :: values) given = aimed values fun d => if d = x.1 then countOf x.2 else given d := rfl

theorem aimed_congr (h : given d = given' d) : aimed values given d = aimed values given' d := by
  induction values generalizing given given' with
  | nil => exact h
  | cons x values ih =>
    rw [aimed_cons, aimed_cons]
    refine ih ?_
    split
    · rfl
    · exact h

theorem aimed_of_not_mem (h : d ∉ values.map (·.1)) : aimed values given d = given d := by
  induction values generalizing given with
  | nil => rfl
  | cons x values ih =>
    rw [map_cons, mem_cons, not_or] at h
    rw [aimed_cons, ih h.2, if_neg h.1]

theorem aimed_of_mem {value : Bool} (h : ∀ x ∈ values, x.1 = d → x.2 = value)
    (hd : d ∈ values.map (·.1)) : aimed values given d = countOf value := by
  induction values generalizing given with
  | nil => cases hd
  | cons x values ih =>
    rw [aimed_cons]
    by_cases hm : d ∈ values.map (·.1)
    · exact ih (forall_mem_cons.mp h).2 hm
    · have hx : d = x.1 := (mem_cons.mp hd).resolve_right hm
      rw [aimed_of_not_mem hm, if_pos hx, h x mem_cons_self hx.symm]

end Aimed

/-! ## Right counts are values -/

section Values

variable {net net' : Network}

theorem Tallied.obeys (h : net.Tallied) (hs : net.Standard) : net.Obeys net.valueAt := by
  intro c op hop hi
  obtain ⟨k, hk, rfl⟩ := map_eq_some_iff.mp hop
  rw [inputsOf_of_get? hk] at hi ⊢
  rw [valueAt_of_get? hk, (hs c k hk).value_eq_read (h c k hk hi)]

theorem Recounts.valueAt_eq (h : Recounts net net') {c : CompId}
    (hc : net'.countAt c = net.countAt c) : net'.valueAt c = net.valueAt c := by
  cases hk : net.get? c with
  | none => rw [valueAt, valueAt, h.get?_none hk, hk]
  | some k =>
    obtain ⟨n, hk'⟩ := h.get? hk
    rw [countAt_of_get? hk, countAt_of_get? hk'] at hc
    have hn : n = k.count := hc
    rw [valueAt_of_get? hk, valueAt_of_get? hk', hn]
    rfl

theorem Recounts.settled (h : Recounts net net') (hs : net.Settled) (ht : net'.Tallied)
    (hg : ∀ c k, net.get? c = some k → k.isGate → k.inputs = [] → net'.countAt c = net.countAt c) :
    net'.Settled := by
  refine ht.settled fun c k' hk' hgate hi => ?_
  obtain ⟨n, hk⟩ := h.symm.get? hk'
  rw [← countAt_of_get? hk', hg c _ hk hgate hi, hs.countAt_of_gate hk hgate hi]

theorem Tallied.eq_of_sources (h : net.Tallied) (h' : net'.Tallied) (hr : Recounts net net')
    (hb : net.Balanced) (ha : net.Acyclic)
    (hsrc : ∀ c, net.inputsOf c = [] → net'.countAt c = net.countAt c) : net' = net := by
  have hcount : ∀ c, net'.countAt c = net.countAt c := by
    intro c
    induction c using ha.induct_inputs hb with
    | step c ih =>
      by_cases hi : net.inputsOf c = []
      · exact hsrc c hi
      obtain ⟨k, hk⟩ := contains_iff.mp (contains_of_fed hi)
      obtain ⟨x, hk'⟩ := hr.get? hk
      rw [inputsOf_of_get? hk] at hi
      rw [countAt_of_get? hk, countAt_of_get? hk', h c k hk hi, h' c _ hk' hi]
      refine congrArg Nat.cast (countP_congr fun b hb => ?_)
      rw [hr.valueAt_eq (ih b ?_)]
      rw [inputsOf_of_get? hk]
      exact hb
  refine hr.eq_of_count fun c k k' hk hk' => ?_
  rw [← countAt_of_get? hk, ← countAt_of_get? hk', hcount]

end Values

end Network

end GameNet
