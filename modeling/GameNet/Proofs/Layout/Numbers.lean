import GameNet.Proofs.Layout.Sorting

/-!
New numbers for the components. The order must name every component just once, and then it makes no
difference how they are numbered.
-/

namespace GameNet.Network

open List

/-! ## The table of new numbers -/

structure Tabled (net : Network) (order : List CompId) (table : Array (Option CompId)) : Prop where
  size : table.size = net.capacity
  nodup : order.Nodup
  live : ∀ c ∈ order, net.contains c = true
  place : ∀ (c : CompId) (i : Nat), (table[c]?).join = some i ↔ order[i]? = some c

section Tabled

variable {net : Network} {order : List CompId} {table : Array (Option CompId)} {c : CompId}

theorem tabled_nil (net : Network) : Tabled net [] (Array.replicate net.capacity none) where
  size := Array.size_replicate
  nodup := .nil
  live := by simp
  place c i := by
    rw [Array.getElem?_replicate]
    split <;> simp

theorem Tabled.append (h : Tabled net order table) (hc : net.contains c) (hnew : (table[c]?).join = none) :
    Tabled net (order ++ [c]) (table.set! c (some order.length)) where
  size := (Array.size_setIfInBounds).trans h.size
  nodup := by
    refine nodup_append.mpr ⟨h.nodup, nodup_singleton c, fun a ha b hb => ?_⟩
    rintro rfl
    obtain ⟨i, hi⟩ := getElem?_of_mem ha
    rw [mem_singleton.mp hb] at hi
    have hplace := (h.place c i).mpr hi
    rw [hnew] at hplace
    cases hplace
  live a ha := by
    rcases mem_append.mp ha with ha | ha
    · exact h.live a ha
    · rwa [mem_singleton.mp ha]
  place a i := by
    have hlt : c < table.size := h.size ▸ lt_capacity_of_contains hc
    rw [Array.set!_eq_setIfInBounds, Array.getElem?_setIfInBounds, getElem?_append]
    by_cases hac : c = a
    · subst hac
      rw [if_pos rfl, if_pos hlt]
      have hout : ∀ j : Nat, order[j]? ≠ some c := fun j hj => by
        have := (h.place c j).mpr hj
        rw [hnew] at this
        cases this
      constructor
      · intro hi
        obtain rfl : order.length = i := Option.some.inj hi
        rw [if_neg (Nat.lt_irrefl _), Nat.sub_self]
        rfl
      intro hi
      split at hi
      · exact (hout i hi).elim
      next hge =>
      have hlen : i - order.length < 1 := (List.getElem?_eq_some_iff.mp hi).1
      have : i = order.length := by omega
      rw [this]
      rfl
    · rw [if_neg hac, h.place]
      split
      · rfl
      next hge =>
      rw [getElem?_eq_none (by omega)]
      constructor
      · intro hi
        cases hi
      intro hi
      obtain ⟨hlen, hi⟩ := List.getElem?_eq_some_iff.mp hi
      exact (hac (by simpa using hi)).elim

def RefusesOrder (net : Network) (order : List CompId) (e : Fault) : Prop :=
  ∃ done c rest, order = done ++ c :: rest ∧ (net.contains c = true → c ∈ done) ∧
    e = net.invariant c .badOrder

theorem newNumbers_outcome (net : Network) (order : List CompId) :
    (Checked.upTo (RefusesOrder net order)).holds (net.newNumbers order) (Tabled net order) := by
  suffices h : ∀ (rest done : List CompId) (table : Array (Option CompId)), done ++ rest = order →
      Tabled net done table → (Checked.upTo (RefusesOrder net order)).holds
        ((rest.zipIdx done.length).foldlM (fun table x =>
          if !net.contains x.1 || ((table[x.1]?).join).isSome then throw (net.invariant x.1 .badOrder)
          else pure (table.set! x.1 (some x.2))) table : Checked _)
        (Tabled net order) from h order [] _ rfl (tabled_nil net)
  intro rest
  induction rest with
  | nil =>
    intro done table hsplit h
    rw [append_nil] at hsplit
    exact (Checked.upTo _).pure (hsplit ▸ h)
  | cons c rest ih =>
    intro done table hsplit h
    rw [zipIdx_cons, foldlM_cons]
    refine (Checked.upTo _).bind (P := Tabled net (done ++ [c])) ?_ fun table' h' => ?_
    · have hrefuse : (net.contains c → c ∈ done) →
          RefusesOrder net order (net.invariant c .badOrder) :=
        fun hc => ⟨done, c, rest, hsplit.symm, hc, rfl⟩
      dsimp only
      cases hc : net.contains c with
      | false => exact .inr ⟨_, rfl, hrefuse fun hlive => absurd (hc.symm.trans hlive) Bool.false_ne_true⟩
      | true =>
        cases hplace : (table[c]?).join with
        | some i => exact .inr ⟨_, rfl, hrefuse fun _ => mem_of_getElem? ((h.place c i).mp hplace)⟩
        | none => exact (Checked.upTo _).pure (h.append hc hplace)
    · have hnext := ih (done ++ [c]) table' (by rw [append_assoc]; exact hsplit) h'
      rw [length_append] at hnext
      exact hnext

theorem newNumbers_ensures (net : Network) (order : List CompId) :
    (net.newNumbers order).Ensures (Tabled net order) := .of_upTo (newNumbers_outcome net order)

theorem newNumbers_yields (hnodup : order.Nodup) (hlive : ∀ c ∈ order, net.contains c) :
    (net.newNumbers order).Yields (Tabled net order) := by
  refine .of_upTo (newNumbers_outcome net order) ?_
  rintro e ⟨done, c, rest, rfl, hturn, -⟩
  have hmem := hturn (hlive c (mem_append_right _ mem_cons_self))
  exact (nodup_append.mp hnodup).2.2 c hmem c mem_cons_self rfl

end Tabled

/-! ## Names by place -/

/-- The place in the order, and for what is not there a number that nothing else gets. -/
def placeIn (net : Network) (order : List CompId) (c : CompId) : CompId :=
  (order.idxOf? c).getD (net.capacity + c)

structure Orders (net : Network) (order : List CompId) : Prop where
  nodup : order.Nodup
  live : ∀ c, c ∈ order ↔ net.contains c = true
  length_le : order.length ≤ net.capacity

section Orders

variable {net : Network} {order : List CompId} {table : Array (Option CompId)} {c : CompId} {i : Nat}

theorem placeIn_of_getElem? (h : Orders net order) (hi : order[i]? = some c) : net.placeIn order c = i := by
  obtain ⟨hlt, hget⟩ := List.getElem?_eq_some_iff.mp hi
  have hidx : order.idxOf? c = some i := by
    rw [← hget, idxOf?_eq_some_iff]
    refine ⟨hlt, rfl, fun j hj heq => ?_⟩
    exact Nat.ne_of_lt hj ((List.Nodup.getElem_inj_iff h.nodup).mp heq)
  rw [placeIn, hidx]
  rfl

theorem placeIn_of_not_mem (hc : c ∉ order) : net.placeIn order c = net.capacity + c := by
  rw [placeIn, idxOf?_eq_none_iff.mpr hc]
  rfl

theorem Orders.injective (h : Orders net order) : Function.Injective (net.placeIn order) := by
  intro a b hab
  by_cases ha : a ∈ order
  · obtain ⟨i, hi⟩ := getElem?_of_mem ha
    rw [placeIn_of_getElem? h hi] at hab
    by_cases hb : b ∈ order
    · obtain ⟨j, hj⟩ := getElem?_of_mem hb
      rw [placeIn_of_getElem? h hj] at hab
      rw [hab, hj] at hi
      exact (Option.some.inj hi).symm
    · have hlt := (List.getElem?_eq_some_iff.mp hi).1
      have := h.length_le
      have hab : i = net.capacity + b := hab.trans (placeIn_of_not_mem hb)
      omega
  · rw [placeIn_of_not_mem ha] at hab
    by_cases hb : b ∈ order
    · obtain ⟨j, hj⟩ := getElem?_of_mem hb
      have hlt := (List.getElem?_eq_some_iff.mp hj).1
      have := h.length_le
      have hab : net.capacity + a = j := hab.trans (placeIn_of_getElem? h hj)
      omega
    · exact Nat.add_left_cancel (hab.trans (placeIn_of_not_mem hb))

theorem Tabled.orders (h : Tabled net order table) (hlen : order.length = net.size) : Orders net order := by
  have hsub : order ⊆ net.ids := fun c hc => mem_ids.mpr (h.live c hc)
  have hperm : order.Perm net.ids :=
    (subperm_of_subset h.nodup hsub).perm_of_length_le (by rw [length_ids, hlen])
  refine ⟨h.nodup, fun c => hperm.mem_iff.trans mem_ids, ?_⟩
  rw [hlen]
  exact Array.countP_le_size

theorem newNumber_ensures (h : Tabled net order table) (ho : Orders net order) (c : CompId) :
    (newNumber table c).Ensures (· = net.placeIn order c) := by
  unfold newNumber
  split
  · next i hi =>
    refine .pure (placeIn_of_getElem? ho ((h.place c i).mp ?_)).symm
    rw [hi]
    rfl
  · exact .throw
  · exact .throw

end Orders

/-! ## Renumbering -/

section Renumber

variable {new : CompId → Checked CompId} {f : CompId → CompId}

theorem mapM_eq_map {α β : Type} {g : α → Checked β} {f : α → β} (h : ∀ a, (g a).Ensures (· = f a))
    (as : List α) : (as.mapM g).Ensures (· = as.map f) := by
  refine (Checked.partly.mapM (R := fun a b => b = f a) as fun a _ => h a).mono fun bs hbs => ?_
  induction hbs with
  | nil => rfl
  | cons hb _ ih => rw [hb, ih, map_cons]

theorem optionMapM_eq_map {α β : Type} {g : α → Checked β} {f : α → β}
    (h : ∀ a, (g a).Ensures (· = f a)) (x : Option α) : (x.mapM g).Ensures (· = x.map f) := by
  cases x with
  | none => exact .pure rfl
  | some a => exact Checked.Ensures.bind (h a) fun b hb => .pure (by rw [hb]; rfl)

theorem renumber_component_ensures (h : ∀ c, (new c).Ensures (· = f c)) (k : Component) :
    (k.renumber new).Ensures (· = k.rename f) := by
  refine Checked.Ensures.bind (mapM_eq_map h k.inputs) fun inputs hi => ?_
  refine Checked.Ensures.bind (mapM_eq_map h k.outputs) fun outputs ho => ?_
  have hdone : ∀ kind, kind = k.kind.rename f →
      ({ k with kind, inputs, outputs } : Component) = k.rename f := fun kind hk => by
    rw [hi, ho, hk]
    rfl
  split
  · next b hb =>
    exact Checked.Ensures.bind (h b) fun b' hb' => .pure (hdone _ (by rw [hb, hb']; rfl))
  · next p hp =>
    refine Checked.Ensures.bind (optionMapM_eq_map h p.pairedInput) fun i hi => ?_
    refine Checked.Ensures.bind (optionMapM_eq_map h p.pairedLegal) fun l hl => ?_
    exact .pure (hdone _ (by rw [hp, hi, hl]; rfl))
  next hbase hprop =>
  refine .pure (hdone _ ?_)
  cases hkind : k.kind with
  | proposition p => exact (hprop p hkind).elim
  | transition b =>
    cases b with
    | none => rfl
    | some b => exact (hbase b hkind).elim
  | and | or | not | constant => rfl

theorem renumber_player_ensures (h : ∀ c, (new c).Ensures (· = f c)) (p : Player) :
    (p.renumber new).Ensures (· =
      { p with inputs := p.inputs.map f, legals := p.legals.map f, goals := p.goals.map f }) := by
  refine Checked.Ensures.bind (mapM_eq_map h p.inputs) fun inputs hi => ?_
  refine Checked.Ensures.bind (mapM_eq_map h p.legals) fun legals hl => ?_
  refine Checked.Ensures.bind (mapM_eq_map h p.goals) fun goals hg => ?_
  exact .pure (by rw [hi, hl, hg])

def renamed (net : Network) (f : CompId → CompId) (order : List CompId)
    (levels : List (List CompId)) : Network :=
  { net with
    slots := (order.map fun c => (net.get? c).map (·.rename f)).toArray
    bases := net.bases.map f
    inputs := net.inputs.map f
    transitions := net.transitions.map f
    players := net.players.map fun p =>
      { p with inputs := p.inputs.map f, legals := p.legals.map f, goals := p.goals.map f }
    levels
    terminal := f net.terminal
    init := net.init.map f
    fixedBase := net.fixedBase.map f }

theorem renumber_ensures (net : Network) (order : List CompId) :
    (net.renumber order).Ensures fun net' => Orders net order ∧
      net' = net.renamed (net.placeIn order) order (net.levels.map (·.map (net.placeIn order))) := by
  unfold renumber
  refine Checked.Ensures.bind (newNumbers_ensures net order) fun table htable => ?_
  by_cases hlen : order.length = net.size
  swap
  · rw [if_pos hlen]
    exact Checked.Ensures.bind (P := fun _ => False) .throw fun _ h => h.elim
  rw [if_neg (not_not.mpr hlen)]
  have ho := htable.orders hlen
  have hnew := newNumber_ensures htable ho
  refine Checked.Ensures.bind (mapM_eq_map (f := fun c => (net.get? c).map
    (·.rename (net.placeIn order))) (fun c => ?_) order) fun slots hslots => ?_
  · refine Checked.Ensures.bind (P := fun k => net.get? c = some k) (fun k hk => get?_of_get hk)
      fun k hk => ?_
    refine Checked.Ensures.bind (renumber_component_ensures hnew k) fun k' hk' => .pure ?_
    rw [hk, hk', Option.map_some]
  refine Checked.Ensures.bind (mapM_eq_map hnew net.bases) fun bases hb => ?_
  refine Checked.Ensures.bind (mapM_eq_map hnew net.inputs) fun inputs hi => ?_
  refine Checked.Ensures.bind (mapM_eq_map hnew net.transitions) fun transitions ht => ?_
  refine Checked.Ensures.bind (mapM_eq_map (renumber_player_ensures hnew) net.players) fun players hp => ?_
  refine Checked.Ensures.bind (mapM_eq_map (mapM_eq_map hnew) net.levels) fun levels hlevels => ?_
  refine Checked.Ensures.bind (hnew net.terminal) fun terminal hterm => ?_
  refine Checked.Ensures.bind (optionMapM_eq_map hnew net.init) fun init hinit => ?_
  refine Checked.Ensures.bind (optionMapM_eq_map hnew net.fixedBase) fun fixedBase hfixed => ?_
  refine .pure ⟨ho, ?_⟩
  rw [hslots, hb, hi, ht, hp, hlevels, hterm, hinit, hfixed]
  rfl

section Renamed

variable {net : Network} {order : List CompId} {levels : List (List CompId)}

theorem get?_renamed (net : Network) (f : CompId → CompId) (order : List CompId)
    (levels : List (List CompId)) (i : Nat) : (net.renamed f order levels).get? i =
      (order[i]?).bind fun c => (net.get? c).map (·.rename f) := by
  simp only [Network.get?, renamed, getElem?_toArray, getElem?_map]
  cases order[i]? <;> rfl

theorem Orders.renames (ho : Orders net order) (levels : List (List CompId)) :
    Renames (net.placeIn order) net (net.renamed (net.placeIn order) order levels) where
  injective := ho.injective
  component c k hk := by
    obtain ⟨i, hi⟩ := getElem?_of_mem ((ho.live c).mpr (contains_of_get? hk))
    refine ⟨k.level, ?_⟩
    rw [placeIn_of_getElem? ho hi, get?_renamed, hi, Option.bind_some, hk]
    rfl
  onto d hd := by
    obtain ⟨k, hk⟩ := contains_iff.mp hd
    rw [get?_renamed] at hk
    obtain ⟨c, hc, -⟩ := Option.bind_eq_some_iff.mp hk
    exact ⟨c, (ho.live c).mp (mem_of_getElem? hc), (placeIn_of_getElem? ho hc).symm⟩
  roles := rfl
  bases := .refl _
  driven R hR := forall₂_map_left_iff.mpr (forall₂_map_right_iff.mpr hR)
  start R hR := forall₂_map_left_iff.mpr hR
  inputs i := by
    change i ∈ net.inputs.map _ ↔ _
    rw [mem_map]
    grind
  players := forall₂_map_right_iff.mpr (forall₂_same.mpr fun p _ => ⟨rfl, .refl _, rfl⟩)
  terminal := rfl
  init := rfl

theorem Orders.aligned (ho : Orders net order) (levels : List (List CompId)) (ha : net.Aligned) :
    (net.renamed (net.placeIn order) order levels).Aligned := by
  intro p' hp'
  obtain ⟨p, hp, rfl⟩ := mem_map.mp hp'
  refine forall₂_map_left_iff.mpr (forall₂_map_right_iff.mpr ?_)
  refine (ha p hp).imp fun l i hli => ?_
  rw [(ho.renames levels).pairedInput?, hli]
  rfl

end Renamed

end Renumber

theorem reorderComponents_ensures (net : Network) : net.reorderComponents.Ensures fun net' =>
    ∃ f, Renames f net net' ∧ (net.Aligned → net'.Aligned) := by
  refine Checked.Ensures.bind (P := fun _ => True) (fun _ _ => trivial) fun order _ => ?_
  refine (renumber_ensures net order).mono ?_
  rintro net' ⟨ho, rfl⟩
  exact ⟨_, ho.renames _, ho.aligned _⟩

end GameNet.Network
