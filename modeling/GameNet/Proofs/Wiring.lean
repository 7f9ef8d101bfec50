import GameNet.Network.Lemmas
import GameNet.Proofs.Outcome
import GameNet.Simplify.Basic

/-!
The wiring of a network: how often each edge is listed at either end, and what every edit does to it.

`Rewires` says that nothing changes but edges, and the counts and thresholds of some gates; `Wired` gives
the multiplicities of all edges at both ends.
-/

namespace GameNet

open List Option

/-! ## Views -/

namespace Component

def bare (k : Component) : Component := { k with inputs := [], outputs := [] }

/-- What no edit of edges touches: a gate may be counted anew, and an AND by other thresholds; all else
stays as it is. -/
def face (k : Component) : Component :=
  if k.op = .and then { k.bare with count := 0, reqTrue := 0, reqFalse := 0 }
  else if k.isGate then { k.bare with count := 0 }
  else k.bare

def Shaped (k : Component) : Prop :=
  k.sign = (if k.op = .not then -1 else 1) ∧ (k.op ≠ .and → k.reqTrue = 1 ∧ k.reqFalse = 0)

theorem face_of_bare {k k' : Component} (h : k.bare = k'.bare) : k.face = k'.face := by
  have hg : k.isGate = k'.isGate := by
    change k.bare.isGate = k'.bare.isGate
    rw [h]
  have hop : k.op = k'.op := by
    change k.bare.op = k'.bare.op
    rw [h]
  simp only [face, hg, hop, h]

theorem face_kind (k : Component) : k.face.kind = k.kind ∧ k.face.sign = k.sign := by
  unfold face
  split
  · exact ⟨rfl, rfl⟩
  · split <;> exact ⟨rfl, rfl⟩

theorem kind_of_face {k k' : Component} (h : k.face = k'.face) : k.kind = k'.kind := by
  rw [← k.face_kind.1, h, k'.face_kind.1]

theorem sign_of_face {k k' : Component} (h : k.face = k'.face) : k.sign = k'.sign := by
  rw [← k.face_kind.2, h, k'.face_kind.2]

theorem op_ne_and_of_isGate {k : Component} (h : k.isGate = false) : k.op ≠ .and := by
  intro hop
  rw [isGate, hop] at h
  cases h

theorem bare_of_face {k k' : Component} (h : k.face = k'.face) (hk : k.isGate = false) :
    k.bare = k'.bare := by
  have hk' : k'.isGate = false := by rw [isGate, op, ← kind_of_face h]; exact hk
  simpa only [face, op_ne_and_of_isGate hk, op_ne_and_of_isGate hk', hk, hk', Bool.false_eq_true,
    if_false] using h

theorem face_eq_of_isGate {k k' : Component} (hk : k.isGate) (hkind : k'.kind = k.kind)
    (hsign : k'.sign = k.sign) (hlevel : k'.level = k.level)
    (hreq : k.op ≠ .and → k'.reqTrue = k.reqTrue ∧ k'.reqFalse = k.reqFalse) : k'.face = k.face := by
  have hop : k'.op = k.op := by rw [op, hkind, op]
  have hk' : k'.isGate := by rw [isGate, hop]; exact hk
  unfold face
  rw [hop, hk, hk']
  split
  · simp only [bare, hkind, hsign, hlevel]
  · next hand =>
    simp only [bare, hkind, hsign, hlevel, (hreq hand).1, (hreq hand).2, if_true]

theorem Shaped.of_face {k k' : Component} (hk : k.Shaped) (h : k'.face = k.face) : k'.Shaped := by
  have hop : k'.op = k.op := by rw [op, kind_of_face h, op]
  refine ⟨by rw [sign_of_face h, hop]; exact hk.1, fun hand => ?_⟩
  rw [hop] at hand
  have hreq : ∀ k : Component, k.op ≠ .and → k.face.reqTrue = k.reqTrue ∧ k.face.reqFalse = k.reqFalse := by
    intro k hk
    unfold face
    rw [if_neg hk]
    split <;> exact ⟨rfl, rfl⟩
  rw [← (hreq k' (hop ▸ hand)).1, ← (hreq k' (hop ▸ hand)).2, h, (hreq k hand).1, (hreq k hand).2]
  exact hk.2 hand

theorem shaped_new (kind : Kind) (count : Int) : (new kind count).Shaped := ⟨rfl, fun _ => ⟨rfl, rfl⟩⟩

theorem kind_of_and {k : Component} (h : k.op = .and) : k.kind = .and := by
  unfold op at h
  cases hk : k.kind <;> rw [hk] at h <;> first | rfl | cases h

theorem fitThresholds_of_and {k : Component} (h : k.op = .and) :
    k.fitThresholds = { k with reqTrue := k.inputs.length, reqFalse := k.inputs.length - 1 } := by
  rw [fitThresholds, kind_of_and h]

theorem op_of_hasRole {k : Component} {role : PropRole} (h : k.hasRole role) : k.op = .proposition := by
  simp only [hasRole, role?, proposition?, beq_iff_eq] at h
  cases hkind : k.kind with
  | proposition p => rw [op, hkind]; rfl
  | _ => rw [hkind] at h; cases h

theorem isGate_of_hasRole {k : Component} {role : PropRole} (h : k.hasRole role) : k.isGate = false := by
  rw [isGate, op_of_hasRole h]
  rfl

theorem fitThresholds_keeps (k : Component) :
    k.fitThresholds.inputs = k.inputs ∧ k.fitThresholds.outputs = k.outputs ∧
      k.fitThresholds.kind = k.kind ∧ k.fitThresholds.face = k.face := by
  unfold fitThresholds
  split
  · next hk =>
    exact ⟨rfl, rfl, rfl, face_eq_of_isGate (by rw [isGate, op, hk]; rfl) rfl rfl rfl
      fun hand => absurd (by rw [op, hk]; rfl) hand⟩
  · exact ⟨rfl, rfl, rfl, rfl⟩

end Component

namespace Network

def inputsOf (net : Network) (c : CompId) : List CompId := (net.get? c).elim [] (·.inputs)

def outputsOf (net : Network) (c : CompId) : List CompId := (net.get? c).elim [] (·.outputs)

def bare? (net : Network) (c : CompId) : Option Component := (net.get? c).map Component.bare

def face? (net : Network) (c : CompId) : Option Component := (net.get? c).map Component.face

def op? (net : Network) (c : CompId) : Option Op := (net.get? c).map Component.op

def parts (net : Network) : Network := { net with slots := #[] }

section Views

variable {net net' : Network} {c : CompId} {k : Component}

theorem inputsOf_of_get? (h : net.get? c = some k) : net.inputsOf c = k.inputs := by
  rw [inputsOf, h]; rfl

theorem outputsOf_of_get? (h : net.get? c = some k) : net.outputsOf c = k.outputs := by
  rw [outputsOf, h]; rfl

theorem op?_of_get? (h : net.get? c = some k) : net.op? c = some k.op := by
  rw [op?, h]; rfl

theorem contains_of_get? (h : net.get? c = some k) : net.contains c :=
  contains_iff.mpr ⟨k, h⟩

theorem contains_of_mem_inputsOf {a : CompId} (h : a ∈ net.inputsOf c) : net.contains c := by
  cases hk : net.get? c with
  | none => simp [inputsOf, hk] at h
  | some k => exact contains_of_get? hk

theorem contains_of_mem_outputsOf {a : CompId} (h : a ∈ net.outputsOf c) : net.contains c := by
  cases hk : net.get? c with
  | none => simp [outputsOf, hk] at h
  | some k => exact contains_of_get? hk

theorem contains_of_fed (h : net.inputsOf c ≠ []) : net.contains c := by
  obtain ⟨a, ha⟩ := exists_mem_of_ne_nil _ h
  exact contains_of_mem_inputsOf ha

theorem contains_of_read (h : net.outputsOf c ≠ []) : net.contains c := by
  obtain ⟨b, hb⟩ := exists_mem_of_ne_nil _ h
  exact contains_of_mem_outputsOf hb

theorem get?_eq_none_iff : net.get? c = none ↔ net.contains c = false := by
  rw [contains, isSome_eq_false_iff, isNone_iff_eq_none]

theorem exists_of_face? (h : net'.face? c = net.face? c) (hk : net.get? c = some k) :
    ∃ k', net'.get? c = some k' ∧ k'.face = k.face := by
  rw [face?, face?, hk] at h
  exact map_eq_some_iff.mp h

theorem contains_of_face? (h : net'.face? c = net.face? c) : net'.contains c = net.contains c := by
  have hm := congrArg Option.isSome h
  rwa [face?, face?, isSome_map, isSome_map] at hm

theorem op?_of_face? (h : net'.face? c = net.face? c) : net'.op? c = net.op? c := by
  cases hk : net.get? c with
  | none =>
    have hn : net'.get? c = none := by
      rw [get?_eq_none_iff, contains_of_face? h]; exact get?_eq_none_iff.mp hk
    rw [op?, op?, hk, hn]
  | some k =>
    obtain ⟨k', hk', hf⟩ := exists_of_face? h hk
    rw [op?_of_get? hk, op?_of_get? hk', Component.op, Component.op, Component.kind_of_face hf]

theorem face?_of_bare? (h : net'.bare? c = net.bare? c) : net'.face? c = net.face? c := by
  rw [bare?, bare?] at h
  rw [face?, face?]
  cases hk : net.get? c with
  | none => rw [hk] at h; rw [map_eq_none_iff.mp h]
  | some k =>
    rw [hk] at h
    obtain ⟨k', hk', hb⟩ := map_eq_some_iff.mp h
    rw [hk', map_some, map_some, Component.face_of_bare hb]

theorem length_ids (net : Network) : net.ids.length = net.size := by
  rw [ids, length_map, components, size, ← Array.countP_toList]
  generalize net.slots.toList = l
  suffices h : ∀ n, (List.filterMap (fun x : Option Component × Nat => x.1.map (x.2, ·))
      (l.zipIdx n)).length = l.countP Option.isSome from h 0
  induction l with
  | nil => exact fun _ => rfl
  | cons slot l ih =>
    intro n
    cases slot with
    | none => exact ih (n + 1)
    | some k =>
      rw [countP_cons_of_pos rfl, ← ih (n + 1)]
      rfl

theorem perm_ids {ids : List CompId} (hd : ids.Nodup) (h : ∀ c, c ∈ ids ↔ net.contains c) : ids.Perm net.ids :=
  (perm_ext_iff_of_nodup hd net.nodup_ids).mpr fun c => (h c).trans mem_ids.symm

end Views

/-! ## Multiplicities -/

def edgesIn (net : Network) (a b : CompId) : Nat := (net.inputsOf b).count a

def edgesOut (net : Network) (a b : CompId) : Nat := (net.outputsOf a).count b

def Balanced (net : Network) : Prop := ∀ a b, net.edgesOut a b = net.edgesIn a b

structure Wired (net : Network) (ins outs : CompId → CompId → Nat) : Prop where
  ins : ∀ a b, net.edgesIn a b = ins a b
  outs : ∀ a b, net.edgesOut a b = outs a b

def arrow (a b x y : CompId) : Nat := if x = a ∧ y = b then 1 else 0

section Multiplicities

variable {net : Network} {a b : CompId} {ins outs : CompId → CompId → Nat}

theorem edgesIn_pos : 0 < net.edgesIn a b ↔ a ∈ net.inputsOf b := count_pos_iff

theorem edgesOut_pos : 0 < net.edgesOut a b ↔ b ∈ net.outputsOf a := count_pos_iff

theorem Balanced.mem_iff (h : net.Balanced) : b ∈ net.outputsOf a ↔ a ∈ net.inputsOf b := by
  rw [← edgesOut_pos, ← edgesIn_pos, h a b]

theorem Balanced.contains_source (h : net.Balanced) (hab : a ∈ net.inputsOf b) : net.contains a :=
  contains_of_mem_outputsOf (h.mem_iff.mpr hab)

theorem Balanced.contains_target (h : net.Balanced) (hab : b ∈ net.outputsOf a) : net.contains b :=
  contains_of_mem_inputsOf (h.mem_iff.mp hab)

theorem wired_self (net : Network) : Wired net net.edgesIn net.edgesOut :=
  ⟨fun _ _ => rfl, fun _ _ => rfl⟩

theorem Balanced.wired (h : net.Balanced) : Wired net net.edgesIn net.edgesIn :=
  ⟨fun _ _ => rfl, h⟩

theorem balanced_iff : net.Balanced ↔ ∀ c ∈ net.ids,
    (∀ b ∈ net.outputsOf c, net.edgesOut c b = net.edgesIn c b) ∧
      ∀ a ∈ net.inputsOf c, net.edgesOut a c = net.edgesIn a c := by
  refine ⟨fun h c _ => ⟨fun b _ => h c b, fun a _ => h a c⟩, fun h a b => ?_⟩
  by_cases hout : b ∈ net.outputsOf a
  · exact (h a (mem_ids.mpr (contains_of_mem_outputsOf hout))).1 b hout
  by_cases hin : a ∈ net.inputsOf b
  · exact (h b (mem_ids.mpr (contains_of_mem_inputsOf hin))).2 a hin
  · rw [edgesOut, edgesIn, count_eq_zero.mpr hout, count_eq_zero.mpr hin]

instance (net : Network) : Decidable net.Balanced := decidable_of_iff' _ balanced_iff

theorem Wired.balanced (h : Wired net ins ins) : net.Balanced := by
  intro a b
  rw [h.outs, h.ins]

theorem Wired.congr {ins' outs' : CompId → CompId → Nat} (h : Wired net ins outs)
    (hi : ∀ a b, ins a b = ins' a b) (ho : ∀ a b, outs a b = outs' a b) : Wired net ins' outs' :=
  ⟨fun a b => by rw [h.ins, hi], fun a b => by rw [h.outs, ho]⟩

theorem Wired.mem_inputsOf (h : Wired net ins outs) : a ∈ net.inputsOf b ↔ 0 < ins a b := by
  rw [← edgesIn_pos, h.ins]

theorem Wired.mem_outputsOf (h : Wired net ins outs) : b ∈ net.outputsOf a ↔ 0 < outs a b := by
  rw [← edgesOut_pos, h.outs]

end Multiplicities

/-! ## Edits -/

structure Rewires (touched : CompId → Prop) (net net' : Network) : Prop where
  parts : net'.parts = net.parts
  capacity : net'.capacity = net.capacity
  face : ∀ c, net'.face? c = net.face? c
  bare : ∀ c, ¬ touched c → net'.bare? c = net.bare? c

section Rewires

variable {touched touched' : CompId → Prop} {net net' net'' : Network} {c : CompId}

theorem Rewires.refl (touched : CompId → Prop) (net : Network) : Rewires touched net net :=
  ⟨rfl, rfl, fun _ => rfl, fun _ _ => rfl⟩

section

variable (h : Rewires touched net net')
include h

theorem Rewires.trans (h' : Rewires touched net' net'') : Rewires touched net net'' where
  parts := h'.parts.trans h.parts
  capacity := h'.capacity.trans h.capacity
  face c := (h'.face c).trans (h.face c)
  bare c hc := (h'.bare c hc).trans (h.bare c hc)

theorem Rewires.mono (ht : ∀ c, touched c → touched' c) : Rewires touched' net net' :=
  { h with bare := fun c hc => h.bare c fun hd => hc (ht c hd) }

theorem Rewires.contains (c : CompId) : net'.contains c = net.contains c := contains_of_face? (h.face c)

theorem Rewires.op? (c : CompId) : net'.op? c = net.op? c :=
  op?_of_face? (h.face c)

end

theorem map_get?_modify {α : Type} {f : Component → Component} (net : Network) (c d : CompId)
    (view : Component → α) (hf : ∀ k, view (f k) = view k) :
    ((net.modify c f).get? d).map view = (net.get? d).map view := by
  rw [get?_modify]
  split
  · rw [Option.map_map]
    exact congrArg (Option.map · _) (funext hf)
  · rfl

theorem rewires_modify {f : Component → Component} (touched : CompId → Prop) (net : Network) (c : CompId)
    (hf : ∀ k, (f k).bare = k.bare := by intro k; rfl) : Rewires touched net (net.modify c f) := by
  have hb : ∀ d, (net.modify c f).bare? d = net.bare? d := fun d => map_get?_modify net c d _ hf
  exact ⟨rfl, capacity_modify net c f, fun d => face?_of_bare? (hb d), fun d _ => hb d⟩

theorem rewires_modify_touched {f : Component → Component} (hf : ∀ k, (f k).face = k.face)
    (net : Network) (hc : touched c) : Rewires touched net (net.modify c f) := by
  refine ⟨rfl, capacity_modify net c f, fun d => map_get?_modify net c d _ hf, fun d hd => ?_⟩
  rw [bare?, bare?, get?_modify, if_neg]
  rintro rfl
  exact hd hc

end Rewires

theorem update_of_contains {net : Network} {c : CompId} (h : net.contains c)
    (f : Component → Component) : net.update c f = .ok (net.modify c f) := if_pos h

section

variable (net : Network) (c d : CompId) (f : Component → Component) (g : List CompId → List CompId)
include f g

theorem inputsOf_modify (hf : ∀ k, (f k).inputs = g k.inputs) (hc : net.contains c) :
    (net.modify c f).inputsOf d = if d = c then g (net.inputsOf d) else net.inputsOf d := by
  rw [inputsOf, get?_modify]
  split
  · next h =>
    subst h
    obtain ⟨k, hk⟩ := contains_iff.mp hc
    rw [inputsOf_of_get? hk, hk]
    exact hf k
  · rfl

theorem outputsOf_modify (hf : ∀ k, (f k).outputs = g k.outputs) (hc : net.contains c) :
    (net.modify c f).outputsOf d = if d = c then g (net.outputsOf d) else net.outputsOf d := by
  rw [outputsOf, get?_modify]
  split
  · next h =>
    subst h
    obtain ⟨k, hk⟩ := contains_iff.mp hc
    rw [outputsOf_of_get? hk, hk]
    exact hf k
  · rfl

end

theorem inputsOf_modify_of_eq (net : Network) (c d : CompId) {f : Component → Component}
    (hf : ∀ k, (f k).inputs = k.inputs) : (net.modify c f).inputsOf d = net.inputsOf d := by
  rw [inputsOf, inputsOf, get?_modify]
  split
  · cases net.get? d with
    | none => rfl
    | some k => exact hf k
  · rfl

theorem outputsOf_modify_of_eq (net : Network) (c d : CompId) {f : Component → Component}
    (hf : ∀ k, (f k).outputs = k.outputs) : (net.modify c f).outputsOf d = net.outputsOf d := by
  rw [outputsOf, outputsOf, get?_modify]
  split
  · cases net.get? d with
    | none => rfl
    | some k => exact hf k
  · rfl

theorem Wired.modify_of_eq {net : Network} {ins outs : CompId → CompId → Nat} (h : Wired net ins outs)
    (c : CompId) {f : Component → Component} (hi : ∀ k, (f k).inputs = k.inputs)
    (ho : ∀ k, (f k).outputs = k.outputs) : Wired (net.modify c f) ins outs where
  ins a b := by rw [edgesIn, inputsOf_modify_of_eq net c b hi]; exact h.ins a b
  outs a b := by rw [edgesOut, outputsOf_modify_of_eq net c a ho]; exact h.outs a b

section

variable {net : Network} {ins ins' outs outs' : CompId → CompId → Nat} (h : Wired net ins outs) {c : CompId}
  (hc : net.contains c) {f : Component → Component} (g g' : List CompId → List CompId)
include h hc

theorem Wired.modify (hi : ∀ k, (f k).inputs = g k.inputs) (ho : ∀ k, (f k).outputs = g' k.outputs)
    (hg : ∀ a, (g (net.inputsOf c)).count a = ins' a c) (hins : ∀ a b, b ≠ c → ins' a b = ins a b)
    (hg' : ∀ b, (g' (net.outputsOf c)).count b = outs' c b)
    (houts : ∀ a b, a ≠ c → outs' a b = outs a b) : Wired (net.modify c f) ins' outs' where
  ins a b := by
    rw [edgesIn, inputsOf_modify net c b f g hi hc]
    split
    · next hb => subst hb; exact hg a
    · next hb => rw [hins a b hb]; exact h.ins a b
  outs a b := by
    rw [edgesOut, outputsOf_modify net c a f g' ho hc]
    split
    · next ha => subst ha; exact hg' b
    · next ha => rw [houts a b ha]; exact h.outs a b

theorem Wired.modify_outputs (hg : ∀ b, (g (net.outputsOf c)).count b = outs' c b)
    (hne : ∀ a b, a ≠ c → outs' a b = outs a b) (hi : ∀ k, (f k).inputs = k.inputs := by intro k; rfl)
    (ho : ∀ k, (f k).outputs = g k.outputs := by intro k; rfl) : Wired (net.modify c f) ins outs' :=
  h.modify hc id g hi ho (h.ins · c) (fun _ _ _ => rfl) hg hne

theorem Wired.modify_inputs (hg : ∀ a, (g (net.inputsOf c)).count a = ins' a c)
    (hne : ∀ a b, b ≠ c → ins' a b = ins a b) (hi : ∀ k, (f k).inputs = g k.inputs := by intro k; rfl)
    (ho : ∀ k, (f k).outputs = k.outputs := by intro k; rfl) : Wired (net.modify c f) ins' outs :=
  h.modify hc g id hi ho hg hne (h.outs c) fun _ _ _ => rfl

end

/-! ## Adding, erasing and replacing edges -/

theorem count_map_replace (old new x : CompId) (l : List CompId) :
    (l.map fun a => if a = old then new else a).count x =
      (if x = old then 0 else l.count x) + if x = new then l.count old else 0 := by
  induction l with
  | nil => simp
  | cons c cs ih =>
    rw [map_cons, count_cons, count_cons, count_cons, ih]
    grind

theorem count_replaceFirst (old new x : CompId) (l : List CompId) : (replaceFirst old new l).count x =
      if old ∈ l then l.count x - (if x = old then 1 else 0) + (if x = new then 1 else 0) else l.count x := by
  induction l with
  | nil => rfl
  | cons c cs ih =>
    have hpos : old ∈ cs → 0 < cs.count old := count_pos_iff.mpr
    rw [replaceFirst]
    by_cases hc : c = old
    · rw [if_pos hc]
      grind
    · rw [if_neg hc, count_cons, ih]
      grind

section Primitives

variable {net : Network} {ins outs : CompId → CompId → Nat} {a b : CompId}
  (touched : CompId → Prop)

section

variable (h : Wired net ins outs)
include h

theorem Wired.eraseOutput (a b : CompId) :
    Wired (net.modify a fun k => { k with outputs := k.outputs.erase b }) ins
      fun x y => outs x y - arrow a b x y := by
  cases hk : net.get? a with
  | none =>
    -- what is not there has no outputs to erase
    rw [modify_of_none hk]
    refine h.congr (fun _ _ => rfl) fun x y => ?_
    rw [← h.outs x y, edgesOut, outputsOf]
    grind [arrow]
  | some k =>
    apply h.modify_outputs (contains_of_get? hk) (List.erase · b)
    · intro y
      rw [count_erase, ← h.outs a y]
      grind [arrow, edgesOut]
    · intro x y hx
      simp [arrow, hx]

theorem Wired.eraseInput (hb : net.contains b) (a : CompId) :
    Wired (net.modify b fun k => { k with inputs := k.inputs.erase a })
      (fun x y => ins x y - arrow a b x y) outs := by
  apply h.modify_inputs hb (List.erase · a)
  · intro x
    rw [count_erase, ← h.ins x b]
    grind [arrow, edgesIn]
  · intro x y hy
    simp [arrow, hy]

theorem Wired.pushOutput (ha : net.contains a) (b : CompId) :
    Wired (net.modify a fun k => { k with outputs := k.outputs ++ [b] }) ins
      fun x y => outs x y + arrow a b x y := by
  apply h.modify_outputs ha (· ++ [b])
  · intro y
    rw [count_append, ← h.outs a y]
    grind [arrow, edgesOut, count_singleton]
  · intro x y hx
    simp [arrow, hx]

theorem Wired.pushInput (hb : net.contains b) (a : CompId) :
    Wired (net.modify b fun k => { k with inputs := k.inputs ++ [a] })
      (fun x y => ins x y + arrow a b x y) outs := by
  apply h.modify_inputs hb (· ++ [a])
  · intro x
    rw [count_append, ← h.ins x b]
    grind [arrow, edgesIn, count_singleton]
  · intro x y hy
    simp [arrow, hy]

theorem link_yields (ha : net.contains a) (hb : net.contains b) :
    (net.link a b).Yields fun net' => Rewires touched net net' ∧
      Wired net' (fun x y => ins x y + arrow a b x y) (fun x y => outs x y + arrow a b x y) := by
  unfold link
  have h1 := rewires_modify (f := fun k => { k with outputs := k.outputs ++ [b] })
    touched net a
  refine .bind_ok (update_of_contains ha _) ?_
  rw [update_of_contains ((h1.contains b).trans hb)]
  refine .ok ⟨h1.trans (rewires_modify touched _ b), ?_⟩
  exact (h.pushOutput ha b).pushInput ((h1.contains b).trans hb) a

theorem unlink_yields (ha : net.contains a) (hb : net.contains b) :
    (net.unlink a b).Yields fun net' => Rewires touched net net' ∧
      Wired net' (fun x y => ins x y - arrow a b x y) (fun x y => outs x y - arrow a b x y) := by
  unfold unlink
  have h1 := rewires_modify (f := fun k => { k with outputs := k.outputs.erase b })
    touched net a
  refine .bind_ok (update_of_contains ha _) ?_
  rw [update_of_contains ((h1.contains b).trans hb)]
  refine .ok ⟨h1.trans (rewires_modify touched _ b), ?_⟩
  exact (h.eraseOutput a b).eraseInput ((h1.contains b).trans hb) a

theorem pushOutput_yields (ha : net.contains a) (b : CompId) :
    (net.pushOutput a b).Yields fun net' => Rewires touched net net' ∧
      Wired net' ins (fun x y => outs x y + arrow a b x y) := by
  rw [Network.pushOutput, update_of_contains ha]
  exact .ok ⟨rewires_modify touched net a, h.pushOutput ha b⟩

theorem replaceInput_yields {o old : CompId} (ho : net.contains o) (hold : 0 < ins old o) (new : CompId) :
    (net.replaceInput o old new).Yields fun net' => Rewires touched net net' ∧
      Wired net' (fun x y => ins x y - arrow old o x y + arrow new o x y) outs := by
  rw [replaceInput, update_of_contains ho]
  refine .ok ⟨rewires_modify touched net o, ?_⟩
  apply h.modify_inputs ho (replaceFirst old new)
  · intro x
    rw [count_replaceFirst, if_pos (h.mem_inputsOf.mpr hold), ← h.ins x o]
    simp [arrow, edgesIn]
  · intro x y hy
    simp [arrow, hy]

theorem replaceOutput_yields {i old : CompId} (hi : net.contains i) (hold : 0 < outs i old) (new : CompId) :
    (net.replaceOutput i old new).Yields fun net' => Rewires touched net net' ∧
      Wired net' ins (fun x y => outs x y - arrow i old x y + arrow i new x y) := by
  rw [replaceOutput, update_of_contains hi]
  refine .ok ⟨rewires_modify touched net i, ?_⟩
  apply h.modify_outputs hi (replaceFirst old new)
  · intro y
    rw [count_replaceFirst, if_pos (h.mem_outputsOf.mpr hold), ← h.outs i y]
    simp [arrow, edgesOut]
  · intro x y hx
    simp [arrow, hx]

theorem dropEdge_yields (ha : net.contains a) (hb : net.contains b) (ht : touched b) :
    (net.dropEdge a b).Yields fun net' => Rewires touched net net' ∧
      Wired net' (fun x y => ins x y - arrow a b x y) (fun x y => outs x y - arrow a b x y) := by
  unfold dropEdge
  obtain ⟨k, hk⟩ := contains_iff.mp ha
  refine .bind_ok (get_of_get? hk) ?_
  refine .bind (unlink_yields touched h ha hb) fun net' h' => ?_
  obtain ⟨hr, hw⟩ := h'
  rw [update_of_contains ((hr.contains b).trans hb)]
  refine .ok ⟨hr.trans (rewires_modify_touched (fun k' => ?_) net' ht),
    hw.modify_of_eq b (fun k' => ?_) (fun k' => ?_)⟩
  · split
    · next hg =>
      have hgate : k'.isGate := by
        simp only [Bool.and_eq_true] at hg
        exact hg.2
      exact Component.face_eq_of_isGate hgate rfl rfl rfl fun _ => ⟨rfl, rfl⟩
    · rfl
  · split <;> rfl
  · split <;> rfl

theorem Wired.remove (c : CompId) : Wired (net.remove c) (fun x y => if y = c then 0 else ins x y)
      (fun x y => if x = c then 0 else outs x y) where
  ins x y := by
    rw [edgesIn, inputsOf, get?_remove]
    split
    · rfl
    · exact h.ins x y
  outs x y := by
    rw [edgesOut, outputsOf, get?_remove]
    split
    · rfl
    · exact h.outs x y

end

theorem get?_capacity (net : Network) : net.get? net.capacity = none := by
  cases hk : net.get? net.capacity with
  | none => rfl
  | some k => exact absurd (lt_capacity_of_get? hk) (Nat.lt_irrefl _)

theorem ne_capacity_of_contains {c : CompId} (h : net.contains c) : c ≠ net.capacity := by
  rintro rfl
  rw [get?_eq_none_iff.mp (get?_capacity net)] at h
  cases h

structure Adds (kind : Kind) (count : Int) (net net' : Network) : Prop where
  parts : net'.parts = net.parts
  capacity : net'.capacity = net.capacity + 1
  get? : ∀ d, net'.get? d = if d = net.capacity then some (.new kind count) else net.get? d

theorem add_eq (net : Network) (kind : Kind) (count : Int) :
    ∃ net', net.add kind count = (net.capacity, net') ∧ Adds kind count net net' :=
  ⟨_, rfl, rfl, Array.size_push _, get?_add net kind count⟩

section Adds

variable {kind : Kind} {count : Int} {net' : Network}
variable (h : Adds kind count net net')
include h

theorem Adds.wired (hw : Wired net ins outs) : Wired net' ins outs := by
  have free := get?_capacity net
  constructor
  · intro x y
    rw [← hw.ins x y, edgesIn, edgesIn, inputsOf, inputsOf, h.get?]
    split
    · next hy => rw [hy, free]; rfl
    · rfl
  · intro x y
    rw [← hw.outs x y, edgesOut, edgesOut, outputsOf, outputsOf, h.get?]
    split
    · next hx => rw [hx, free]; rfl
    · rfl

theorem Adds.contains_new : net'.contains net.capacity := by
  rw [contains, h.get?, if_pos rfl]
  rfl

theorem Adds.contains_old {d : CompId} (hd : net.contains d) : net'.contains d := by
  rw [contains, h.get?]
  split
  · rfl
  · exact hd

theorem Adds.face? {d : CompId} (hd : d ≠ net.capacity) : net'.face? d = net.face? d := by
  rw [Network.face?, Network.face?, h.get?, if_neg hd]

theorem Adds.bare? {d : CompId} (hd : d ≠ net.capacity) : net'.bare? d = net.bare? d := by
  rw [Network.bare?, Network.bare?, h.get?, if_neg hd]

theorem Adds.op? : net'.op? net.capacity = some kind.op := by
  rw [Network.op?, h.get?, if_pos rfl]
  rfl

end Adds

theorem Wired.eraseOutputs (h : Wired net ins outs) (c : CompId) (is : List CompId) :
    let net' := is.foldl (fun net i =>
      net.modify i fun k => { k with outputs := k.outputs.erase c }) net
    Rewires touched net net' ∧
      Wired net' ins (fun x y => outs x y - if y = c then is.count x else 0) := by
  induction is generalizing net outs with
  | nil => exact ⟨.refl _ _, h.congr (fun _ _ => rfl) (fun x y => by simp)⟩
  | cons i is ih =>
    have h1 := rewires_modify (f := fun k => { k with outputs := k.outputs.erase c }) touched net i
    obtain ⟨h2, w2⟩ := ih (h.eraseOutput i c)
    refine ⟨h1.trans h2, w2.congr (fun _ _ => rfl) fun x y => ?_⟩
    grind [arrow]

theorem Wired.eraseInputs (h : Wired net ins outs) (c : CompId) (os : List CompId)
    (hos : ∀ o ∈ os, net.contains o) : let net' := os.foldl (fun net o =>
      net.modify o fun k => { k with inputs := k.inputs.erase c }) net
    Rewires touched net net' ∧
      Wired net' (fun x y => ins x y - if x = c then os.count y else 0) outs := by
  induction os generalizing net ins with
  | nil => exact ⟨.refl _ _, h.congr (fun x y => by simp) (fun _ _ => rfl)⟩
  | cons o os ih =>
    have h1 := rewires_modify (f := fun k => { k with inputs := k.inputs.erase c }) touched net o
    have w1 := h.eraseInput (hos o mem_cons_self) c
    obtain ⟨h2, w2⟩ := ih w1 fun j hj =>
      (h1.contains j).trans (hos j (mem_cons_of_mem _ hj))
    refine ⟨h1.trans h2, w2.congr (fun x y => ?_) fun _ _ => rfl⟩
    grind [arrow]

/-- A fold whose steps edit edges: `ins done` and `outs done` are the multiplicities when the elements
`done` have had their turn. -/
theorem foldlM_rewires {f : Network → CompId → Checked Network}
    {ins outs : List CompId → CompId → CompId → Nat} (os : List CompId) (h : Wired net (ins []) (outs []))
    (step : ∀ done o net', o ∈ os → (done ++ [o]).Sublist os → Rewires touched net net' →
      Wired net' (ins done) (outs done) → (f net' o).Yields fun net'' =>
        Rewires touched net' net'' ∧ Wired net'' (ins (done ++ [o])) (outs (done ++ [o]))) :
    (os.foldlM f net).Yields fun net' => Rewires touched net net' ∧ Wired net' (ins os) (outs os) := by
  refine (Checked.total.foldlM (fun rest net' => ∃ done, os = done ++ rest ∧ Rewires touched net net' ∧
    Wired net' (ins done) (outs done)) (fun o rest net' hinv => ?_) os net
    ⟨[], rfl, .refl _ _, h⟩).mono fun net' hend => ?_
  · obtain ⟨done, hos, hr, hw⟩ := hinv
    have hnext : os = done ++ [o] ++ rest := by rw [hos, append_assoc]; rfl
    exact (step done o net' (by simp [hos]) (hnext ▸ sublist_append_left _ _) hr hw).mono
      fun net'' h' => ⟨done ++ [o], hnext, hr.trans h'.1, h'.2⟩
  · obtain ⟨done, hos, hr, hw⟩ := hend
    rw [append_nil] at hos
    exact hos ▸ ⟨hr, hw⟩

theorem handOver_yields {c twin : CompId} {os : List CompId} (h : Wired net ins outs)
    (ht : net.contains twin) (hne : twin ≠ c)
    (ho : ∀ o ∈ os, net.contains o) (hle : ∀ b, os.count b ≤ ins c b) :
    (os.foldlM (fun net o => do (← net.replaceInput o c twin).pushOutput twin o) net :
      Checked Network).Yields fun net' => Rewires touched net net' ∧
        Wired net' (fun a b => if a = c then ins a b - os.count b
            else if a = twin then ins a b + os.count b else ins a b)
          (fun a b => if a = twin then outs a b + os.count b else outs a b) := by
  apply foldlM_rewires touched os
  · exact h.congr (fun a b => by simp) fun a b => by simp
  intro done o net' hmem hsub hr hw
  have hcount := fun b => Nat.le_trans (hsub.count_le b) (hle b)
  have hpos : 0 < ins c o - done.count o := by
    have := hcount o
    grind
  refine .bind (replaceInput_yields touched hw ((hr.contains o).trans (ho o hmem)) (by simpa using hpos)
    twin) fun net1 h1 => ?_
  obtain ⟨hr1, hw1⟩ := h1
  refine (pushOutput_yields touched hw1 ((hr1.contains twin).trans ((hr.contains twin).trans ht)) o).mono
    fun net2 h2 => ⟨hr1.trans h2.1, h2.2.congr (fun a b => ?_) fun a b => ?_⟩
  · have := hcount b
    grind [arrow]
  · grind [arrow]

theorem isolate_yields (hb : net.Balanced) {c : CompId} (hc : net.contains c) :
    (net.isolate c).Yields fun net' => Rewires touched net net' ∧
      Wired net' (fun x y => if x = c ∨ y = c then 0 else net.edgesIn x y)
        (fun x y => if x = c ∨ y = c then 0 else net.edgesIn x y) := by
  obtain ⟨k, hk⟩ := contains_iff.mp hc
  unfold isolate
  refine .bind_ok (get_of_get? hk) (.pure ?_)
  have hin : ∀ x, net.edgesIn x c = k.inputs.count x := by
    intro x; rw [edgesIn, inputsOf_of_get? hk]
  have hout : ∀ y, net.edgesIn c y = k.outputs.count y := by
    intro y; rw [← hb c y, edgesOut, outputsOf_of_get? hk]
  -- the lists of `c` go first, then its entry at the other end of each of them
  have h1 := rewires_modify (f := fun k => { k with inputs := [], outputs := [] }) touched net c
  have w1 : Wired (net.modify c fun k => { k with inputs := [], outputs := [] })
      (fun x y => if y = c then 0 else net.edgesIn x y)
      (fun x y => if x = c then 0 else net.edgesIn x y) := by
    constructor
    · intro x y
      rw [edgesIn, inputsOf_modify net c y _ (fun _ => []) (fun _ => rfl) hc]
      split <;> rfl
    intro x y
    rw [edgesOut, outputsOf_modify net c x _ (fun _ => []) (fun _ => rfl) hc]
    split
    · rfl
    · exact hb x y
  obtain ⟨h2, w2⟩ := w1.eraseOutputs touched c k.inputs
  obtain ⟨h3, w3⟩ := w2.eraseInputs touched c k.outputs fun o ho =>
    ((h1.trans h2).contains o).trans (hb.contains_target (by rwa [outputsOf_of_get? hk]))
  refine ⟨(h1.trans h2).trans h3, w3.congr (fun x y => ?_) fun x y => ?_⟩
  · grind
  · grind

end Primitives

end Network

end GameNet
