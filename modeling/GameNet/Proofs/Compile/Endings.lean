import GameNet.Proofs.Compile.NewGates

/-!
Legals come to stand at the ends of a network, and nothing computes anything else for that.

A legal that is read gets a gate in front of it, which is read in its place.
-/

namespace GameNet.Network

open List

def isRead (net : Network) (c : CompId) : Bool := !(net.outputsOf c).isEmpty

theorem isRead_iff {net : Network} {c : CompId} : net.isRead c ↔ net.outputsOf c ≠ [] := by
  rw [isRead, Bool.not_eq_true', ← Bool.not_eq_true, List.isEmpty_iff]

theorem isRead_eq_false {net : Network} {c : CompId} : net.isRead c = false ↔ net.outputsOf c = [] := by
  rw [← Bool.not_eq_true, isRead_iff, not_not]

/-! ## One legal -/

section One

variable {net net' : Network} {l input c : CompId} {k : Component} {op : Op}

theorem endAtLegal_of_unread (hk : net.get? l = some k) (ho : k.outputs = []) :
    net.endAtLegal l = .ok none := by
  unfold endAtLegal
  rw [get_of_get? hk]
  change (if k.outputs.isEmpty = true then _ else _ : Checked _) = _
  rw [if_pos (by rw [ho]; rfl)]
  rfl

theorem endAtLegal_refuses (hk : net.get? l = some k) (ho : k.outputs ≠ []) (hi : k.inputs.length ≠ 1) :
    net.endAtLegal l = .error (net.structural l .legalInputs) := by
  unfold endAtLegal
  rw [get_of_get? hk]
  change (if k.outputs.isEmpty = true then _ else _ : Checked _) = _
  rw [if_neg (by rwa [List.isEmpty_iff])]
  split
  · next input hin =>
    rw [hin] at hi
    exact absurd rfl hi
  · rfl

theorem Inserts.ended_obeys (h : Inserts .or (net.ended l input) net net') (hb : net.Balanced)
    (ha : net.Acyclic) (hin : net.inputsOf l = [input]) (hop : net.op? l = some op) (hnot : op ≠ .not)
    {v : CompId → Bool} (hv : net'.Obeys v) : net.Obeys v := by
  have hsound : Sound (fun _ => True) net net' := h.ended_sound hb ha hin hop hnot
  have hlg := ne_capacity_of_contains (contains_of_op? hop)
  -- a component with a single input that does not negate has its value
  have hone : ∀ c a op', net'.op? c = some op' → op' ≠ .not →
      (∀ x, 0 < net.ended l input x c ↔ x = a) → v c = v a := by
    intro c a op' hop' hnot' honly
    have hmem : ∀ x, x ∈ net'.inputsOf c ↔ x ∈ [a] := fun x => by
      rw [h.wired.mem_inputsOf, honly, mem_singleton]
    rw [hv c op' hop' (ne_nil_of_mem ((hmem a).mpr (mem_singleton_self a))),
      Op.read_of_mem_iff _ _ hmem, Op.read_singleton _ hnot']
  have hgate : v net.capacity = v input := hone _ _ _ h.gate (by decide) (by grind [ended])
  have hlegal : v l = v net.capacity :=
    hone l _ op ((op?_of_face? (h.face hlg)).trans hop) hnot (by grind [ended])
  -- so the gate can stand for the legal wherever that was read
  intro c op' hop' hi
  have hc := contains_of_op? hop'
  have hcg := ne_capacity_of_contains hc
  rw [hv c op' ((op?_of_face? (h.face hcg)).trans hop') (hsound.fed c (hsound.keeps c trivial hc) hi)]
  exact read_ended hb hin hlegal.symm (hlegal.trans hgate) hcg (fun a => h.wired.mem_inputsOf) op'

theorem Inserts.isRead_ended (h : Inserts .or (net.ended l input) net net') (hb : net.Balanced)
    (hin : net.inputsOf l = [input]) (hcl : c ≠ l) (hcg : c ≠ net.capacity) :
    net'.isRead c = net.isRead c := by
  have hl := edgesIn_of_single hin
  have hcap := edgesIn_capacity hb c
  have hnew : net'.isRead c ↔ ∃ b, 0 < net.ended l input c b := by
    simp only [isRead_iff, ne_eq, eq_nil_iff_forall_not_mem, not_forall, not_not, h.wired.mem_outputsOf]
  have hold : net.isRead c ↔ ∃ b, 0 < net.edgesIn c b := by
    simp only [isRead_iff, ne_eq, eq_nil_iff_forall_not_mem, not_forall, not_not, hb.mem_iff, edgesIn_pos]
  -- an edge to the legal has become one to the gate, and the other way round
  rw [Bool.eq_iff_iff, hnew, hold]
  constructor
  · rintro ⟨b, hbpos⟩
    by_cases hbg : b = net.capacity
    · exact ⟨l, by grind [ended]⟩
    · exact ⟨b, by grind [ended]⟩
  · rintro ⟨b, hbpos⟩
    by_cases hbl : b = l
    · exact ⟨net.capacity, by grind [ended]⟩
    · exact ⟨b, by grind [ended]⟩

end One

/-! ## All legals -/

def LegalFault (net : Network) (e : Fault) : Prop :=
  ∃ l ∈ net.legals, net.isRead l = true ∧ (net.inputsOf l).length ≠ 1 ∧ e = net.structural l .legalInputs

structure Ending (net : Network) (rest : List CompId) (s : Network × Nat) : Prop where
  sound : Sound (fun _ => True) net s.1
  obeys : ∀ v, s.1.Obeys v → net.Obeys v
  distinct : rest.Nodup
  waiting : ∀ l ∈ rest, l ∈ net.legals ∧ s.1.isRead l = net.isRead l ∧
    (s.1.inputsOf l).length = (net.inputsOf l).length
  ended : ∀ l ∈ net.legals, l ∉ rest → s.1.isRead l = false ∧
    (net.isRead l = true → (net.inputsOf l).length = 1)
  number : s.2 + rest.countP net.isRead = net.legals.countP net.isRead

section All

variable {net cur : Network} {l : CompId} {rest : List CompId} {n : Nat}

theorem ending_start (hb : net.Balanced) (ha : net.Acyclic) (hd : net.legals.Nodup) :
    Ending net net.legals (net, 0) where
  sound := .refl hb ha
  obeys _ hv := hv
  distinct := hd
  waiting _ hl := ⟨hl, rfl, rfl⟩
  ended _ hl hnot := absurd hl hnot
  number := Nat.zero_add _

theorem structural_of_face? {net' : Network} {c : CompId} (h : net'.face? c = net.face? c)
    (cause : StructuralCause) : net'.structural c cause = net.structural c cause := by
  unfold structural site kindName termText?
  cases hk : net.get? c with
  | none => rw [get?_eq_none_iff.mpr ((contains_of_face? h).trans (get?_eq_none_iff.mp hk))]
  | some k =>
    obtain ⟨k', hk', hface⟩ := exists_of_face? h hk
    have hkind := Component.kind_of_face hface
    simp only [hk', Option.elim_some, Option.bind_some, Component.op, Component.term?,
      Component.proposition?, hkind]

section

variable (h : Ending net (l :: rest) (cur, n))
include h

theorem Ending.skip (hl : net.isRead l = false) : Ending net rest (cur, n) where
  sound := h.sound
  obeys := h.obeys
  distinct := (nodup_cons.mp h.distinct).2
  waiting m hm := h.waiting m (mem_cons_of_mem l hm)
  ended m hm hnot := by
    by_cases hml : m = l
    · subst hml
      rw [(h.waiting m mem_cons_self).2.1, hl]
      exact ⟨rfl, fun hread => by cases hread⟩
    · exact h.ended m hm fun hmem => (mem_cons.mp hmem).elim hml hnot
  number := by
    rw [← h.number, countP_cons_of_neg (by rw [hl]; exact Bool.false_ne_true)]

theorem Ending.insert {input : CompId} {net' : Network} {op : Op}
    (hins : Inserts .or (cur.ended l input) cur net') (hin : cur.inputsOf l = [input])
    (hop : cur.op? l = some op) (hnot : op ≠ .not) (hl : net.isRead l)
    (hlive : ∀ m ∈ net.legals, cur.contains m) : Ending net rest (net', n + 1) := by
  have hb := h.sound.balanced
  have ha := h.sound.acyclic
  have hlg := ne_capacity_of_contains (contains_of_op? hop)
  have hone : (net.inputsOf l).length = 1 := by
    rw [← (h.waiting l mem_cons_self).2.2, hin]
    rfl
  have hother : ∀ m ∈ net.legals, m ≠ l → net'.isRead m = cur.isRead m := fun m hm hml =>
    hins.isRead_ended hb hin hml (ne_capacity_of_contains (hlive m hm))
  exact
    { sound := h.sound.trans (hins.ended_sound hb ha hin hop hnot)
      obeys := fun v hv => h.obeys v (hins.ended_obeys hb ha hin hop hnot hv)
      distinct := (nodup_cons.mp h.distinct).2
      waiting := fun m hm => by
        obtain ⟨hlegal, hread, hlen⟩ := h.waiting m (mem_cons_of_mem l hm)
        have hml : m ≠ l := ne_of_mem_of_not_mem hm (nodup_cons.mp h.distinct).1
        refine ⟨hlegal, (hother m hlegal hml).trans hread, ?_⟩
        rw [hins.length_ended hb hlg hml (ne_capacity_of_contains (hlive m hlegal)), hlen]
      ended := fun m hm hmr => by
        by_cases hml : m = l
        · subst hml
          exact ⟨isRead_eq_false.mpr (hins.outputsOf_ended ha hin hlg), fun _ => hone⟩
        · rw [hother m hm hml]
          exact h.ended m hm fun hmem => (mem_cons.mp hmem).elim hml hmr
      number := by
        rw [← h.number, countP_cons_of_pos hl]
        omega }

theorem Ending.turn (hlegals : ∀ l ∈ net.legals, ∃ op, net.op? l = some op ∧ op ≠ .not) :
    (Checked.upTo net.LegalFault).holds (do
      match ← cur.endAtLegal l with
      | some net => return (net, n + 1)
      | none => return (cur, n)) (Ending net rest) := by
  obtain ⟨hl, hread, hlen⟩ := h.waiting l mem_cons_self
  have hkeeps : ∀ m ∈ net.legals, cur.contains m := fun m hm => by
    obtain ⟨op, hop, -⟩ := hlegals m hm
    exact h.sound.keeps m trivial (contains_of_op? hop)
  obtain ⟨op, hop, hnot⟩ := hlegals l hl
  have hlive := contains_of_op? hop
  obtain ⟨k, hk⟩ := contains_iff.mp (hkeeps l hl)
  by_cases ho : k.outputs = []
  · -- nothing reads it, and nothing did at the start
    rw [endAtLegal_of_unread hk ho]
    refine .inl ⟨_, rfl, h.skip ?_⟩
    rw [← hread, isRead_eq_false, outputsOf_of_get? hk, ho]
  have hread' : net.isRead l := by rwa [← hread, isRead_iff, outputsOf_of_get? hk]
  by_cases hi : k.inputs.length = 1
  · obtain ⟨input, hi⟩ := length_eq_one_iff.mp hi
    obtain ⟨_, hok, net', rfl, hins⟩ := endAtLegal_yields h.sound.balanced h.sound.acyclic hk hi ho
    rw [hok]
    exact .inl ⟨_, rfl, h.insert hins ((inputsOf_of_get? hk).trans hi)
      ((h.sound.op? hlive (hkeeps l hl)).trans hop) hnot hread' hkeeps⟩
  · -- the report says what the legal was at the start, since its kind has not changed
    rw [endAtLegal_refuses hk ho hi]
    refine .inr ⟨_, rfl, l, hl, hread', ?_, structural_of_face? (h.sound.face l hlive (hkeeps l hl)) _⟩
    rwa [← hlen, inputsOf_of_get? hk]

end

theorem endAtLegals_ending (hb : net.Balanced) (ha : net.Acyclic) (hd : net.legals.Nodup)
    (hlegals : ∀ l ∈ net.legals, ∃ op, net.op? l = some op ∧ op ≠ .not) :
    (Checked.upTo net.LegalFault).holds net.endAtLegals (Ending net []) :=
  (Checked.upTo net.LegalFault).foldlM (Ending net) (fun _ _ _ h => h.turn hlegals) net.legals (net, 0)
    (ending_start hb ha hd)

/-- All legals are dealt with, unless one of them is read and has not just one input, and then it is
reported. Nothing reads a legal any more, as many gates were inserted as there were legals that something
read, and all that was there has the value that it had, whatever the sources are set to. A legal is a
proposition, of which it only matters here that it does not negate what it reads. -/
theorem endAtLegals_keeps_values (net : Network) (hb : net.Balanced) (ha : net.Acyclic)
    (hd : net.legals.Nodup) (hlegals : ∀ l ∈ net.legals, ∃ op, net.op? l = some op ∧ op ≠ .not) :
    ((∃ e, net.endAtLegals = .error e) ↔
      ∃ l ∈ net.legals, net.outputsOf l ≠ [] ∧ (net.inputsOf l).length ≠ 1) ∧
    (∀ e, net.endAtLegals = .error e → ∃ l ∈ net.legals,
      net.outputsOf l ≠ [] ∧ (net.inputsOf l).length ≠ 1 ∧ e = net.structural l .legalInputs) ∧
    ∀ net' n, net.endAtLegals = .ok (net', n) →
      net'.legals = net.legals ∧ (∀ l ∈ net.legals, net'.outputsOf l = []) ∧
      net'.Balanced ∧ net'.Acyclic ∧ n = net.legals.countP (fun l => !(net.outputsOf l).isEmpty) ∧
      ∀ c, net.contains c = true → net'.contains c = true ∧ net'.op? c = net.op? c ∧
        ∀ σ, net'.eval σ c = net.eval σ c := by
  have hfault : ∀ e, net.LegalFault e → ∃ l ∈ net.legals,
      net.outputsOf l ≠ [] ∧ (net.inputsOf l).length ≠ 1 ∧ e = net.structural l .legalInputs := by
    rintro e ⟨l, hl, hread, hlen, he⟩
    exact ⟨l, hl, isRead_iff.mp hread, hlen, he⟩
  rcases endAtLegals_ending hb ha hd hlegals with ⟨⟨net', n⟩, hok, h⟩ | ⟨e, herr, he⟩
  · rw [hok]
    refine ⟨⟨fun h => h.elim fun e he => (by cases he), fun hbad => ?_⟩, fun e he => (by cases he),
      fun net₁ n₁ h₁ => ?_⟩
    · obtain ⟨l, hl, hread, hlen⟩ := hbad
      exact absurd ((h.ended l hl List.not_mem_nil).2 (isRead_iff.mpr hread)) hlen
    · cases h₁
      refine ⟨field_of_parts Network.legals h.sound.parts,
        fun l hl => isRead_eq_false.mp (h.ended l hl List.not_mem_nil).1, h.sound.balanced, h.sound.acyclic,
        h.number, fun c hc => ?_⟩
      have hc' := h.sound.keeps c trivial hc
      exact ⟨hc', h.sound.op? hc hc', fun σ => h.sound.eval_eq_of_obeys h.obeys hb ha σ hc⟩
  · rw [herr]
    obtain ⟨l, hl, hread, hlen, he⟩ := hfault e he
    refine ⟨⟨fun _ => ⟨l, hl, hread, hlen⟩, fun _ => ⟨e, rfl⟩⟩, fun e' he' => ?_, fun _ _ h => (by cases h)⟩
    cases he'
    exact ⟨l, hl, hread, hlen, he⟩

end All

def legalChain : Network :=
  let prop (role : PropRole) (text : String) : Kind := .proposition { role, term := .atom text }
  { roles := ["hand"]
    slots := #[
      some { kind := prop .base "lit", outputs := [1] },
      some { kind := .not, inputs := [0], outputs := [2], sign := -1 },
      some { kind := prop .legal "wait", inputs := [1], outputs := [3, 4, 5] },
      some { kind := prop .legal "press", inputs := [2], outputs := [4] },
      some { kind := .and, inputs := [2, 3], outputs := [6], reqTrue := 2, reqFalse := 1 },
      some { kind := prop .terminal "over", inputs := [2] },
      some { kind := prop .legal "turn", inputs := [4] }]
    bases := [0], terminal := 5
    players := [{ name := "hand", legals := [2, 3, 6] }] }

/-- Two gates are inserted, and the gate at the end computes what it did. -/
theorem endAtLegals_keeps_values_legalChain :
    legalChain.Balanced ∧ legalChain.Acyclic ∧ legalChain.outputsOf 2 = [3, 4, 5] ∧
      ∃ net', legalChain.endAtLegals = .ok (net', 2) ∧ net'.outputsOf 2 = [] ∧ net'.outputsOf 3 = [] ∧
        net'.Acyclic ∧ ∀ σ, net'.eval σ 4 = legalChain.eval σ 4 := by
  have hb : legalChain.Balanced := by decide
  have hr : legalChain.Ranked fun c => [0, 1, 2, 3, 4, 3, 5].getD c 0 := by decide
  have hlegals : ∀ l ∈ legalChain.legals, ∃ op, legalChain.op? l = some op ∧ op ≠ .not := by
    intro l hl
    have hprop : ∀ l ∈ legalChain.legals, legalChain.op? l = some .proposition := by decide
    exact ⟨_, hprop l hl, by decide⟩
  obtain ⟨herr, -, hok⟩ := endAtLegals_keeps_values legalChain hb hr.acyclic (by decide) hlegals
  cases hrun : legalChain.endAtLegals with
  | error e => exact absurd (herr.mp ⟨e, hrun⟩) (by decide)
  | ok r =>
    obtain ⟨-, hends, -, ha', hn, hsame⟩ := hok r.1 r.2 hrun
    have hn : r.2 = 2 := hn
    refine ⟨hb, hr.acyclic, rfl, r.1, ?_, hends 2 (by decide), hends 3 (by decide), ha',
      (hsame 4 (by decide)).2.2⟩
    rw [← hn]

end GameNet.Network
