import GameNet.Proofs.Extent
import GameNet.Proofs.Simplify.Refinement

/-!
The mass of a network, which every change made by the optimizer lessens.

What never grows is the number of routes by which components without inputs reach the components to keep:
twice that number, and the number of components, is the mass.
-/

namespace GameNet.Network

/-! ## Routes -/

def routesWithin (net : Network) : (n : Nat) → CompId → Nat
  | 0, _ => 1
  | n + 1, c => if net.inputsOf c = [] then 1 else tally (net.routesWithin n) (net.inputsOf c)

def routes (net : Network) (c : CompId) : Nat := net.routesWithin (net.capacity + 1) c

def Majorizes (net : Network) (N : CompId → Nat) : Prop :=
  ∀ c, net.contains c = true → 1 ≤ N c ∧ tally N (net.inputsOf c) ≤ N c

section Routes

variable {net : Network} {N : CompId → Nat}

theorem routesWithin_of_source {c : CompId} (h : net.inputsOf c = []) (n : Nat) :
    net.routesWithin n c = 1 := by
  cases n with
  | zero => rfl
  | succ n => rw [routesWithin, if_pos h]

theorem routes_of_source {c : CompId} (h : net.inputsOf c = []) : net.routes c = 1 :=
  routesWithin_of_source h _

theorem routesWithin_stable {rank : CompId → Nat} (hr : net.Ranked rank) (c : CompId) (n m : Nat)
    (hn : rank c < n) (hm : rank c < m) : net.routesWithin n c = net.routesWithin m c := by
  induction n generalizing c m with
  | zero => omega
  | succ n ih =>
    obtain ⟨m, rfl⟩ : ∃ m', m = m' + 1 := ⟨m - 1, by omega⟩
    rw [routesWithin, routesWithin]
    split
    · rfl
    have eq : ∀ a ∈ net.inputsOf c, net.routesWithin n a = net.routesWithin m a := by
      intro a ha
      have := hr a c ha
      exact ih a m (by omega) (by omega)
    exact tally_congr eq

section

variable (hb : net.Balanced) (ha : net.Acyclic)
include hb ha

theorem routes_of_fed {c : CompId}
    (h : net.inputsOf c ≠ []) : net.routes c = tally net.routes (net.inputsOf c) := by
  obtain ⟨rank, hr, hle⟩ := ha.exists_rank hb
  rw [routes, routesWithin, if_neg h]
  have eq : ∀ a ∈ net.inputsOf c, net.routesWithin net.capacity a = net.routes a := by
    intro a hac
    have h1 := hr a c hac
    have h2 := hle c
    exact routesWithin_stable hr a _ _ (by omega) (by omega)
  exact tally_congr eq

theorem routes_pos (c : CompId) : 1 ≤ net.routes c := by
  induction c using ha.induct_inputs hb with
  | step c ih =>
    by_cases h : net.inputsOf c = []
    · rw [routes_of_source h]
    obtain ⟨a, hac⟩ := List.exists_mem_of_ne_nil _ h
    rw [routes_of_fed hb ha h]
    exact (ih a hac).trans (le_tally hac)

theorem tally_routes_le (c : CompId) : tally net.routes (net.inputsOf c) ≤ net.routes c := by
  by_cases h : net.inputsOf c = []
  · rw [h]; exact Nat.zero_le _
  · exact (routes_of_fed hb ha h).ge

end

/-- Routes are the least weights that majorize. -/
theorem Majorizes.routes_le (h : net.Majorizes N) (hb : net.Balanced) (ha : net.Acyclic)
    (c : CompId) (hc : net.contains c) : net.routes c ≤ N c := by
  induction c using ha.induct_inputs hb with
  | step c ih =>
    by_cases hi : net.inputsOf c = []
    · rw [routes_of_source hi]; exact (h c hc).1
    rw [routes_of_fed hb ha hi]
    refine Nat.le_trans (tally_mono fun a hac => ?_) (h c hc).2
    exact ih a hac (hb.contains_source hac)

theorem Majorizes.routes_lt (h : net.Majorizes N) (hb : net.Balanced) (ha : net.Acyclic) {c d : CompId}
    (hlt : net.routes c < N c) (hcd : Relation.ReflTransGen net.Feeds c d) : net.routes d < N d := by
  induction hcd with
  | refl => exact hlt
  | @tail e d _ hed ih =>
    have hd : net.contains d := contains_of_mem_inputsOf hed
    rw [routes_of_fed hb ha (List.ne_nil_of_mem hed)]
    refine Nat.lt_of_lt_of_le (tally_lt_of_mem (fun a had => ?_) hed ih) (h d hd).2
    exact h.routes_le hb ha a (hb.contains_source had)

theorem exists_reaches (hb : net.Balanced) (ha : net.Acyclic) {ends : List CompId}
    (he : ∀ c, net.contains c → net.outputsOf c = [] → c ∈ ends) (c : CompId)
    (hc : net.contains c) : ∃ d ∈ ends, Relation.ReflTransGen net.Feeds c d := by
  induction c using ha.induct_outputs hb with
  | step c ih =>
    by_cases ho : net.outputsOf c = []
    · exact ⟨c, he c hc ho, .refl⟩
    obtain ⟨o, hco⟩ := List.exists_mem_of_ne_nil _ ho
    obtain ⟨d, hd, hod⟩ := ih o hco (hb.contains_target hco)
    exact ⟨d, hd, .head (hb.mem_iff.mp hco) hod⟩

end Routes

/-! ## Mass -/

def live (net : Network) : Finset CompId :=
  (Finset.range net.capacity).filter fun c => net.contains c = true

theorem mem_live {net : Network} {c : CompId} : c ∈ net.live ↔ net.contains c := by
  rw [live, Finset.mem_filter, Finset.mem_range]
  exact ⟨fun h => h.2, fun h => ⟨lt_capacity_of_contains h, h⟩⟩

def mass (net : Network) (keep : List CompId) : Nat :=
  2 * tally net.routes keep + net.live.card

structure Progress (keep : List CompId) (n : Nat) (net net' : Network) : Prop
    extends Sound (· ∈ keep) net net' where
  mass_le : net'.mass keep ≤ net.mass keep
  mass_lt : 0 < n → net'.mass keep < net.mass keep

section Progress

variable {keep : List CompId} {net net' net'' : Network} {n m : Nat}

theorem Progress.refl (hb : net.Balanced) (ha : net.Acyclic) : Progress keep 0 net net :=
  { Sound.refl hb ha with mass_le := Nat.le_refl _, mass_lt := fun h => absurd h (Nat.lt_irrefl 0) }

theorem Progress.trans (h : Progress keep n net net') (h' : Progress keep m net' net'') :
    Progress keep (n + m) net net'' :=
  { h.toSound.trans h'.toSound with
    mass_le := h'.mass_le.trans h.mass_le
    mass_lt := fun hpos => by
      have h1 := h.mass_le
      have h2 := h'.mass_le
      rcases Nat.eq_zero_or_pos n with rfl | hn
      · have := h'.mass_lt (by omega)
        omega
      · have := h.mass_lt hn
        omega }

section

variable (h : Sound (· ∈ keep) net net') (hk : ∀ d ∈ keep, net.contains d)
include h hk

theorem Sound.tally_routes_le {N : CompId → Nat} (hN : net'.Majorizes N)
    (hd : ∀ d ∈ keep, N d ≤ net.routes d) : tally net'.routes keep ≤ tally net.routes keep :=
  tally_mono fun d hm =>
    (hN.routes_le h.balanced h.acyclic d (h.keeps d hm (hk d hm))).trans (hd d hm)

theorem Sound.tally_routes_lt {N : CompId → Nat} (hN : net'.Majorizes N) (hd : ∀ d ∈ keep, N d ≤ net.routes d)
    (he : ∀ c, net'.contains c → net'.outputsOf c = [] → c ∈ keep) {c : CompId} (hc : net'.contains c)
    (hlt : net'.routes c < N c) : tally net'.routes keep < tally net.routes keep := by
  obtain ⟨d, hm, hcd⟩ := exists_reaches h.balanced h.acyclic he c hc
  refine tally_lt_of_mem (fun e hem => ?_) hm ?_
  · exact (hN.routes_le h.balanced h.acyclic e (h.keeps e hem (hk e hem))).trans (hd e hem)
  · exact (hN.routes_lt h.balanced h.acyclic hlt hcd).trans_le (hd d hm)

end

end Progress

section Edits

variable {gone touched : CompId → Prop} {edges : CompId → CompId → Nat} {net net' : Network}
variable (e : Edit gone touched edges net net')
include e

/-- The routes of the old network majorize in the new one, if every input is replaced by some that
weigh no more. -/
theorem Edit.majorizes (hb : net.Balanced) (ha : net.Acyclic) (replacement : CompId → List CompId)
    (hr : ∀ a, tally net.routes (replacement a) ≤ net.routes a)
    (he : ∀ c, ¬ gone c → ∀ a, edges a c ≤ ((net.inputsOf c).flatMap replacement).count a) :
    net'.Majorizes net.routes := by
  intro c hc
  have hg := e.not_gone hc
  refine ⟨routes_pos hb ha c, ?_⟩
  calc tally net.routes (net'.inputsOf c)
      ≤ tally net.routes ((net.inputsOf c).flatMap replacement) :=
        tally_le_of_count_le fun a => (e.wired.ins a c).trans_le (he c hg a)
    _ ≤ tally net.routes (net.inputsOf c) := tally_flatMap_le replacement fun a _ => hr a
    _ ≤ net.routes c := tally_routes_le hb ha c

theorem Edit.card_live_le : net'.live.card ≤ net.live.card := by
  apply Finset.card_le_card
  intro c hc
  rw [mem_live] at hc ⊢
  rw [← e.contains (e.not_gone hc)]
  exact hc

theorem Edit.card_live_lt {c : CompId} (hg : gone c)
    (hc : net.contains c) : net'.live.card < net.live.card := by
  apply Finset.card_lt_card
  refine ⟨fun d hd => ?_, fun hsub => ?_⟩
  · rw [mem_live] at hd ⊢
    rw [← e.contains (e.not_gone hd)]
    exact hd
  · have := hsub (mem_live.mpr hc)
    rw [mem_live, e.missing c hg] at this
    cases this

theorem Edit.progress {keep : List CompId} {N : CompId → Nat} (h : Sound (· ∈ keep) net net')
    (hk : ∀ d ∈ keep, net.contains d) (hN : net'.Majorizes N) (hd : ∀ d ∈ keep, N d ≤ net.routes d)
    {c : CompId} (hg : gone c) (hc : net.contains c) : Progress keep 1 net net' := by
  have h1 := h.tally_routes_le hk hN hd
  have h2 := e.card_live_lt hg hc
  have hlt : net'.mass keep < net.mass keep := by
    rw [mass, mass]
    omega
  exact { h with mass_le := hlt.le, mass_lt := fun _ => hlt }

end Edits

/-! ## Passes -/

def Solid (keep : List CompId) (net : Network) : Prop :=
  ∀ d ∈ keep, ∃ op, net.op? d = some op ∧ op.isGate = false

def Trim (keep : List CompId) (net : Network) : Prop :=
  ∀ c, net.contains c = true → net.outputsOf c = [] → c ∈ keep

section Passes

variable {keep : List CompId} {net net' : Network}

theorem Solid.contains (h : Solid keep net) {d : CompId} (hd : d ∈ keep) : net.contains d := by
  obtain ⟨op, hop, -⟩ := h d hd
  exact contains_of_op? hop

theorem Solid.not_mem (h : Solid keep net) {c : CompId} {op : Op} (hop : net.op? c = some op)
    (hg : op.isGate) : c ∉ keep := by
  intro hm
  obtain ⟨op', hop', hg'⟩ := h c hm
  rw [hop] at hop'
  cases hop'
  rw [hg] at hg'
  cases hg'

theorem Sound.solid (s : Sound (· ∈ keep) net net') (h : Solid keep net) : Solid keep net' := by
  intro d hd
  obtain ⟨op, hop, hg⟩ := h d hd
  have hc := contains_of_op? hop
  exact ⟨op, by rw [s.op? hc (s.keeps d hd hc), hop], hg⟩

/-- A sweep whose visits make progress makes progress. What else the visits need is kept, too. -/
theorem sweep_progress {visit : Network → CompId → Component → Checked (Option Network)}
    (extra : Network → Prop) (hv : ∀ net c k, net.Balanced → net.Acyclic → Solid keep net → extra net →
      net.get? c = some k → (visit net c k).Yields fun r => ∀ net', r = some net' →
        Progress keep 1 net net' ∧ extra net')
    (hb : net.Balanced) (ha : net.Acyclic) (hs : Solid keep net) (hx : extra net) :
    (net.sweep visit).Yields fun r => Progress keep r.2 net r.1 ∧ extra r.1 := by
  refine sweep_yields (fun n net' => Progress keep n net net' ∧ extra net')
    (fun n net1 c k h1 hk => ?_) ⟨.refl hb ha, hx⟩
  refine (hv net1 c k h1.1.balanced h1.1.acyclic (h1.1.solid hs) h1.2 hk).mono fun r hr net2 h2 => ?_
  exact ⟨h1.1.trans (hr net2 h2).1, (hr net2 h2).2⟩

end Passes

end GameNet.Network
