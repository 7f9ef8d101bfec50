import GameNet.Proofs.Compile.FanIn
import GameNet.Proofs.Simplify.Weight

/-!
Capping the fan-in ends, and the cap stays in force.

A turn halves the number of inputs of every gate that is too wide, and the gates that it adds are not.
-/

namespace GameNet.Network

open List

/-! ## The widest component -/

def widest (net : Network) : Nat := net.components.foldr (fun x n => max x.2.inputs.length n) 0

section Widest

variable {net : Network} {n : Nat}

theorem widest_le_iff : net.widest ≤ n ↔ ∀ c, (net.inputsOf c).length ≤ n := by
  have hfold : ∀ l : List (CompId × Component),
      l.foldr (fun x n => max x.2.inputs.length n) 0 ≤ n ↔ ∀ x ∈ l, x.2.inputs.length ≤ n := by
    intro l
    induction l with
    | nil => simp
    | cons x l ih => rw [foldr_cons, Nat.max_le, ih, forall_mem_cons]
  rw [widest, hfold]
  refine ⟨fun h c => ?_, fun h x hx => ?_⟩
  · rw [inputsOf]
    cases hk : net.get? c with
    | none => exact Nat.zero_le _
    | some k => exact h (c, k) (mem_components.mpr hk)
  · rw [← inputsOf_of_get? (mem_components.mp hx)]
    exact h x.1

theorem le_widest (net : Network) (c : CompId) : (net.inputsOf c).length ≤ net.widest :=
  widest_le_iff.mp (Nat.le_refl _) c

theorem widest_le_extent (net : Network) : net.widest ≤ net.extent := by
  refine widest_le_iff.mpr fun c => ?_
  rw [inputsOf, extent_eq]
  cases hk : net.get? c with
  | none => exact Nat.zero_le _
  | some k =>
    have := le_total (w := fun k => k.inputs.length + k.outputs.length) hk
    simp only [Option.elim_some]
    omega

end Widest

def WideGates (net : Network) : Prop :=
  ∀ c k, net.get? c = some k → 2 < k.inputs.length → k.op = .and ∨ k.op = .or

instance (net : Network) : Decidable net.WideGates := decidable_of_iff' _ forall_components

/-! ## Turns -/

section Turns

variable {cap : Nat} {net cur cur' : Network} {c : CompId} {rest : List CompId}

theorem Splits.wideGates (h : Splits cap c net cur) (hw : net.WideGates) (hc : 2 < (net.inputsOf c).length) :
    cur.WideGates := by
  intro d k hk hlt
  have hlive := contains_of_get? hk
  by_cases hd : net.contains d
  · obtain ⟨k0, hk0⟩ := contains_iff.mp hd
    have hop : some k.op = some k0.op := by
      rw [← op?_of_get? hk, ← op?_of_get? hk0]
      exact h.op? hd hlive
    rw [Option.some.inj hop]
    refine hw d k0 hk0 ?_
    rw [← inputsOf_of_get? hk0]
    by_cases hdc : d = c
    · rwa [hdc]
    · rwa [← h.kept d hdc hd, inputsOf_of_get? hk]
  · have hop := (h.fresh d hlive (Bool.eq_false_iff.mpr hd)).2.1
    rw [op?_of_get? hk] at hop
    exact hop.imp Option.some.inj Option.some.inj

/-- During a turn that started at `net`: the gates in `rest` are still to be split, and the others have
fewer inputs than the widest one had. -/
structure Narrowing (cap : Nat) (net : Network) (rest : List CompId) (cur : Network) : Prop where
  expands : Expands net cur
  gates : cur.WideGates
  distinct : rest.Nodup
  waiting : ∀ d ∈ rest, cap < (cur.inputsOf d).length ∧ (cur.inputsOf d).length ≤ net.widest
  narrowed : ∀ d, d ∉ rest → (cur.inputsOf d).length ≤ cap ∨ (cur.inputsOf d).length < net.widest

theorem narrowing_start (hb : net.Balanced) (ha : net.Acyclic) (hw : net.WideGates) :
    Narrowing cap net (net.wide cap) net where
  expands := .refl hb ha
  gates := hw
  distinct := List.Nodup.sublist (List.Sublist.map _ filter_sublist) net.nodup_ids
  waiting d hd := ⟨mem_wide.mp hd, net.le_widest d⟩
  narrowed _ hd := .inl (Nat.not_lt.mp fun hlt => hd (mem_wide.mpr hlt))

theorem Narrowing.split (h : Narrowing cap net (c :: rest) cur) (hcap : 2 ≤ cap) :
    (FanIn.split cap cur c).Yields fun r => Narrowing cap net rest r.1 := by
  obtain ⟨hexp, hgates, hdistinct, hwaiting, hnarrowed⟩ := h
  obtain ⟨hc, hrest⟩ := nodup_cons.mp hdistinct
  obtain ⟨hlt, hle⟩ := hwaiting c mem_cons_self
  have hfed : ∀ d, cap < (cur.inputsOf d).length → cur.contains d := by
    intro d hd
    obtain ⟨i, hi⟩ := exists_mem_of_length_pos (Nat.zero_lt_of_lt hd)
    exact contains_of_mem_inputsOf hi
  obtain ⟨k, hk⟩ := contains_iff.mp (hfed c hlt)
  have hlen : 2 < k.inputs.length := by
    rw [← inputsOf_of_get? hk]
    exact Nat.lt_of_le_of_lt hcap hlt
  refine (split_yields hcap hexp.balanced hexp.acyclic hk (hgates c k hk hlen)
    (ne_nil_of_length_pos (Nat.zero_lt_of_lt hlen))).mono fun r hr => ?_
  refine ⟨hexp.trans hr.toExpands, hr.wideGates hgates (Nat.lt_of_le_of_lt hcap hlt), hrest,
    fun d hd => ?_, fun d hd => ?_⟩
  · have hd' := hwaiting d (mem_cons_of_mem _ hd)
    rwa [hr.kept d (ne_of_mem_of_not_mem hd hc) (hfed d hd'.1)]
  by_cases hdc : d = c
  · have := hr.halved
    subst hdc
    exact .inr (by omega)
  by_cases hlive : cur.contains d
  · rw [hr.kept d hdc hlive]
    exact hnarrowed d fun hmem => (mem_cons.mp hmem).elim hdc hd
  · exact .inl (hr.small d (Bool.eq_false_iff.mpr hlive))

theorem turn_narrows {n : Nat} (hcap : 2 ≤ cap) (hb : net.Balanced) (ha : net.Acyclic)
    (hw : net.WideGates) : (FanIn.turn cap (net, n)).Yields (Guarantee.Reaches
      (fun s => (Expands net s.1 ∧ s.1.WideGates) ∧ s.1.widest < net.widest)
      fun s => s.1 = net ∧ ∀ c, (net.inputsOf c).length ≤ cap) := by
  refine (turn_keeps Checked.total (Narrowing cap net) (fun c rest cur h => h.split hcap)
    (narrowing_start hb ha hw)).mono fun t ht => ?_
  cases t with
  | done s => exact ht
  | next s =>
    obtain ⟨h, c, hc⟩ := ht
    have hwide := Nat.lt_of_lt_of_le hc (net.le_widest c)
    refine ⟨⟨h.expands, h.gates⟩, Nat.lt_of_le_of_lt (m := net.widest - 1) ?_ (by omega)⟩
    refine widest_le_iff.mpr fun d => ?_
    have := h.narrowed d not_mem_nil
    omega

theorem capFanIn_yields (hb : net.Balanced) (ha : net.Acyclic) (hw : net.WideGates) (cap : Nat) :
    (net.capFanIn cap).Yields fun r => Expands net r.1 ∧ ∀ c, (r.1.inputsOf c).length ≤ max cap 2 := by
  refine Checked.total.run (fun s : Network × Nat => Expands net s.1 ∧ s.1.WideGates)
    (fun s => s.1.widest) _ (fun s hs => ?_) ⟨.refl hb ha, hw⟩ ?_
  · obtain ⟨hexp, hgates⟩ := hs
    refine (turn_narrows (n := s.2) (Nat.le_max_right cap 2) hexp.balanced hexp.acyclic hgates).mono
      fun t ht => ?_
    cases t with
    | done s' =>
      obtain ⟨hsame, hsmall⟩ := ht
      rw [← hsame] at hexp hsmall
      exact ⟨hexp, hsmall⟩
    | next s' => exact ⟨⟨hexp.trans ht.1.1, ht.1.2⟩, ht.2⟩
  · have := net.widest_le_extent
    have := Loop.lt_allowance (net.extent + 1 + Loop.patience)
    dsimp only
    omega

end Turns

/-- What obeys the larger network obeys the old one, so old components have the values that they had. -/
theorem Expands.eval_eq {net net' : Network} (h : Expands net net') (hb : net.Balanced)
    (ha : net.Acyclic) (σ : CompId → Bool) {c : CompId} (hc : net.contains c) :
    net'.eval σ c = net.eval σ c := h.toSound.eval_eq_of_obeys h.obeys hb ha σ hc

/-- The fan-in can be capped whatever the cap is. Every component that was there computes what it did,
and it and the new gates have standard thresholds and right counts. The optimizer, where it may only
take away, then gives no component more inputs. -/
theorem fanIn_stays_capped (net : Network) (cap : Nat) (hb : net.Balanced) (ha : net.Acyclic)
    (hstd : net.Standard) (hs : net.Settled) (hw : net.WideGates) :
    ∃ net' n, net.capFanIn cap = .ok (net', n) ∧
      (∀ c, (net'.inputsOf c).length ≤ max cap 2) ∧ net'.Balanced ∧ net'.Acyclic ∧
      (∀ c, net.contains c = true → net'.contains c = true ∧ net'.op? c = net.op? c ∧
        ∀ σ, net'.eval σ c = net.eval σ c) ∧
      net'.Standard ∧ net'.Settled ∧
      ∀ mode : Optimize.Mode, mode.allPasses = false → ∃ net'' m,
        (net'.optimize mode).listen.1 = .ok (net'', m) ∧
        ∀ c, (net''.inputsOf c).length ≤ (net'.inputsOf c).length := by
  obtain ⟨⟨net', n⟩, hrun, hexp, hsmall⟩ := capFanIn_yields hb ha hw cap
  refine ⟨net', n, hrun, hsmall, hexp.balanced, hexp.acyclic, fun c hc => ?_, hexp.standard hstd,
    hexp.settled hstd hs, fun mode hm => ?_⟩
  · have hc' := hexp.keeps c trivial hc
    exact ⟨hc', hexp.op? hc hc', fun σ => hexp.eval_eq hb ha σ hc⟩
  · obtain ⟨⟨net'', m⟩, hopt, hshrinks⟩ := optimize_shrinks hm hexp.balanced hexp.acyclic #[]
    exact ⟨net'', m, hopt, hshrinks.inputs⟩

def broad : Network :=
  let prop (role : PropRole) (name : String) : Kind := .proposition { role, term := .atom name }
  { roles := []
    slots := #[
      some { kind := prop .other "a", outputs := [3, 3, 4], count := 1 },
      some { kind := prop .other "b", outputs := [3, 3, 4], count := 1 },
      some { kind := prop .other "c", outputs := [3] },
      some { kind := .and, inputs := [0, 0, 1, 2, 1], outputs := [4, 4]
             count := 4, reqTrue := 5, reqFalse := 4 },
      some { kind := .or, inputs := [3, 0, 3, 1], outputs := [5], count := 2 },
      some { kind := prop .terminal "over", inputs := [4], count := 1 }]
    bases := [], inputs := [], transitions := [], terminal := 5, initialState := [], players := [] }

/-- Even a cap of nought is met with two inputs each. -/
theorem fanIn_stays_capped_broad : broad.Balanced ∧ broad.Acyclic ∧ broad.Standard ∧ broad.Settled ∧
    broad.WideGates ∧ ∃ net' n, broad.capFanIn 0 = .ok (net', n) ∧
      (∀ c, (net'.inputsOf c).length ≤ 2) ∧ net'.Settled ∧
      (∀ σ, net'.eval σ 5 = broad.eval σ 5) ∧
      ∃ net'' m, (net'.optimize { once := true, allPasses := false }).listen.1 = .ok (net'', m) ∧
        ∀ c, (net''.inputsOf c).length ≤ (net'.inputsOf c).length := by
  have hb : broad.Balanced := by decide
  have hrank : broad.Ranked fun c => [0, 0, 0, 1, 2, 3].getD c 0 := by decide
  have hstd : broad.Standard := by decide
  have hs : broad.Settled := by decide
  have hw : broad.WideGates := by decide
  obtain ⟨net', n, hrun, hsmall, -, -, hsame, -, hset, hopt⟩ :=
    fanIn_stays_capped broad 0 hb hrank.acyclic hstd hs hw
  exact ⟨hb, hrank.acyclic, hstd, hs, hw, net', n, hrun, hsmall, hset, (hsame 5 (by decide)).2.2,
    hopt _ rfl⟩

end GameNet.Network
