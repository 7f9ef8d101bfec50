import GameNet.Event
import GameNet.Loop
import Mathlib.Data.List.Forall2

/-!
What a computation that may fail is known to return.

`Yields` says that there is a result and that it has a property; `Ensures` says that a result, if there is
one, has it.
-/

namespace GameNet

open List

variable {α : Type}

theorem exists_of_bind_eq_ok {ε α β : Type} {x : Except ε α} {f : α → Except ε β} {b : β}
    (h : x >>= f = .ok b) : ∃ a, x = .ok a ∧ f a = .ok b := by
  cases x with
  | error e => cases h
  | ok a => exact ⟨a, rfl, h⟩

/-! ## Plain computations -/

namespace Checked

variable {α β : Type} {x : Checked α} {f : α → Checked β} {P P' : α → Prop} {Q : β → Prop}
  {g : α → Bool} {a : α}

def Yields (x : Checked α) (P : α → Prop) : Prop := ∃ a, x = .ok a ∧ P a

def Ensures (x : Checked α) (P : α → Prop) : Prop := ∀ a, x = .ok a → P a

theorem Yields.ensures (h : Yields x P) : Ensures x P := by
  obtain ⟨a, rfl, ha⟩ := h
  intro b hb
  cases hb
  exact ha

theorem Yields.pure (h : P a) : Yields (pure a) P := ⟨a, rfl, h⟩

theorem Yields.ok (h : P a) : Yields (.ok a) P := ⟨a, rfl, h⟩

theorem Yields.mono (h : Yields x P) (hP : ∀ a, P a → P' a) : Yields x P' := by
  obtain ⟨a, hx, ha⟩ := h
  exact ⟨a, hx, hP a ha⟩

theorem Yields.bind (h : Yields x P) (hf : ∀ a, P a → Yields (f a) Q) : Yields (x >>= f) Q := by
  obtain ⟨a, rfl, ha⟩ := h
  exact hf a ha

theorem Yields.bind_ok (hx : x = .ok a) (hf : Yields (f a) Q) : Yields (x >>= f) Q := by
  rw [hx]
  exact hf

theorem Yields.eq_ok (h : Yields x (· = a)) : x = .ok a := by
  obtain ⟨b, hx, rfl⟩ := h
  exact hx

theorem Ensures.pure (h : P a) : Ensures (Pure.pure a) P := by
  intro b hb
  cases hb
  exact h

theorem Ensures.throw {e : Fault} : Ensures (throw e) P := by
  intro b hb
  cases hb

theorem Ensures.mono (h : Ensures x P) (hP : ∀ a, P a → P' a) : Ensures x P' :=
  fun a ha => hP a (h a ha)

theorem Ensures.bind (h : Ensures x P) (hf : ∀ a, P a → Ensures (f a) Q) : Ensures (x >>= f) Q := by
  intro b hb
  cases x with
  | error e => cases hb
  | ok a => exact hf a (h a rfl) b hb

theorem Ensures.and (h : Ensures x P) (h' : Ensures x P') : Ensures x fun a => P a ∧ P' a :=
  fun a ha => ⟨h a ha, h' a ha⟩

theorem bind_yields (h : Yields (x >>= f) Q) : ∃ a, x = .ok a ∧ Yields (f a) Q := by
  obtain ⟨b, hb, hQ⟩ := h
  obtain ⟨a, hx, ha⟩ := exists_of_bind_eq_ok hb
  exact ⟨a, hx, b, ha, hQ⟩

theorem mapM_yields {f : α → Checked β} {g : α → β} (as : List α)
    (h : ∀ a ∈ as, f a = .ok (g a)) : as.mapM f = .ok (as.map g) := by
  induction as with
  | nil => rfl
  | cons a as ih =>
    rw [mapM_cons, h a mem_cons_self, ih (forall_mem_cons.mp h).2]
    rfl

theorem mapM_eq_find {f : α → Checked β} {p : α → Bool} {g : α → β} {e : α → Fault} (as : List α)
    (h : ∀ a ∈ as, f a = if p a = true then .ok (g a) else .error (e a)) :
    as.mapM f = (as.find? fun a => !p a).elim (.ok (as.map g)) fun a => .error (e a) := by
  induction as with
  | nil => rfl
  | cons a as ih =>
    rw [mapM_cons, h a mem_cons_self, find?_cons, ih (forall_mem_cons.mp h).2]
    cases hp : p a with
    | false => rfl
    | true =>
      cases as.find? fun a => !p a <;> rfl

theorem mapM_eq_ok {f : α → Checked β} {as : List α} {bs : List β} (h : as.mapM f = .ok bs) :
    List.Forall₂ (fun a b => f a = .ok b) as bs := by
  induction as generalizing bs with
  | nil =>
    cases h
    exact .nil
  | cons a as ih =>
    rw [mapM_cons] at h
    obtain ⟨b, hb, h⟩ := exists_of_bind_eq_ok h
    obtain ⟨bs', hbs, h⟩ := exists_of_bind_eq_ok h
    cases h
    exact .cons hb (ih hbs)

theorem filterM_yields {f : α → Checked Bool} (as : List α)
    (h : ∀ a ∈ as, f a = .ok (g a)) : as.filterM f = .ok (as.filter g) := by
  suffices haux : ∀ acc, List.filterAuxM f as acc = .ok ((as.filter g).reverse ++ acc) by
    rw [List.filterM, haux, append_nil]
    exact congrArg Except.ok (reverse_reverse _)
  induction as with
  | nil => exact fun acc => rfl
  | cons a as ih =>
    intro acc
    rw [List.filterAuxM, h a mem_cons_self]
    have hrest := ih (forall_mem_cons.mp h).2
    cases ha : g a with
    | true =>
      rw [filter_cons_of_pos ha, reverse_cons, append_assoc]
      exact hrest (a :: acc)
    | false =>
      rw [filter_cons_of_neg (by rw [ha]; exact Bool.false_ne_true)]
      exact hrest acc

theorem exists_of_filterM_eq_ok {f : α → Checked Bool} {as bs : List α} (h : as.filterM f = .ok bs) :
    ∀ a ∈ as, ∃ b, f a = .ok b := by
  suffices haux : ∀ acc bs, List.filterAuxM f as acc = .ok bs → ∀ a ∈ as, ∃ b, f a = .ok b by
    obtain ⟨bs', h, -⟩ := exists_of_bind_eq_ok h
    exact haux [] bs' h
  clear h
  induction as with
  | nil => exact fun _ _ _ a ha => absurd ha not_mem_nil
  | cons a as ih =>
    intro acc bs h
    rw [List.filterAuxM] at h
    obtain ⟨keep, hkeep, h⟩ := exists_of_bind_eq_ok h
    exact forall_mem_cons.mpr ⟨⟨keep, hkeep⟩, ih _ bs h⟩

theorem allM_yields {f : α → Checked Bool} (as : List α)
    (h : ∀ a ∈ as, f a = .ok (g a)) : as.allM f = .ok (as.all g) := by
  induction as with
  | nil => rfl
  | cons a as ih =>
    rw [List.allM, h a mem_cons_self, all_cons]
    cases hg : g a
    · rfl
    · exact ih (forall_mem_cons.mp h).2

theorem anyM_yields {f : α → Checked Bool} (as : List α)
    (h : ∀ a ∈ as, f a = .ok (g a)) : as.anyM f = .ok (as.any g) := by
  induction as with
  | nil => rfl
  | cons a as ih =>
    rw [List.anyM, h a mem_cons_self, any_cons]
    cases hg : g a
    · exact ih (forall_mem_cons.mp h).2
    · rfl

theorem exists_of_isOk (h : x.isOk) : ∃ a, x = .ok a := by
  cases x with
  | error e => cases h
  | ok a => exact ⟨a, rfl⟩

theorem check_eq_ok_iff {x : Checked PUnit} {y : Checked β} {b : β} :
    (x >>= fun _ => y) = .ok b ↔ x = .ok ⟨⟩ ∧ y = .ok b := by
  cases x with
  | error e => exact ⟨fun h => (by cases h), fun h => (by cases h.1)⟩
  | ok u => exact (and_iff_right rfl).symm

theorem forIn_eq_ok_iff {p : α → Prop} {check : α → PUnit → Checked (ForInStep PUnit)} (as : List α)
    (hcheck : ∀ a, p a ∧ check a ⟨⟩ = .ok (.yield ⟨⟩) ∨ ¬ p a ∧ ∃ e, check a ⟨⟩ = .error e) :
    forIn as PUnit.unit check = .ok ⟨⟩ ↔ ∀ a ∈ as, p a := by
  induction as with
  | nil => exact ⟨fun _ a ha => absurd ha not_mem_nil, fun _ => rfl⟩
  | cons a as ih =>
    rw [forIn_cons, forall_mem_cons, ← ih]
    rcases hcheck a with ⟨hp, hr⟩ | ⟨hp, e, hr⟩
    · rw [hr]
      exact (and_iff_right hp).symm
    · rw [hr]
      exact ⟨fun h => (by cases h), fun h => absurd h.1 hp⟩

theorem forM_eq_ok_iff {check : α → Checked Unit} (as : List α) :
    as.forM check = .ok () ↔ ∀ a ∈ as, check a = .ok () := by
  induction as with
  | nil => exact ⟨fun _ a ha => absurd ha not_mem_nil, fun _ => rfl⟩
  | cons a as ih =>
    rw [List.forM, forall_mem_cons, ← ih]
    cases check a with
    | error e => exact ⟨fun h => (by cases h), fun h => (by cases h.1)⟩
    | ok u => exact (and_iff_right rfl).symm

end Checked

/-! ## Computations with an observer -/

namespace Observed

variable {α β : Type} {x : Observed α} {f : α → Observed β} {P P' : α → Prop} {Q : β → Prop}

def outcome (x : Observed α) (events : Array Event) : Checked α × Array Event :=
  (ExceptT.run x).run events

theorem listen_eq (x : Observed α) : x.listen = x.outcome #[] := rfl

theorem outcome_bind (x : Observed α) (f : α → Observed β) (events : Array Event) :
    outcome (x >>= f) events =
      match outcome x events with
      | (.ok a, told) => outcome (f a) told
      | (.error e, told) => (.error e, told) := by
  have h : outcome (x >>= f) events = (ExceptT.bindCont f (outcome x events).1) (outcome x events).2 := rfl
  rw [h]
  rcases outcome x events with ⟨_ | a, told⟩ <;> rfl

def Yields (x : Observed α) (P : α → Prop) : Prop :=
  ∀ events, ∃ a, (x.outcome events).1 = .ok a ∧ P a

def Ensures (x : Observed α) (P : α → Prop) : Prop :=
  ∀ events a, (x.outcome events).1 = .ok a → P a

theorem Yields.ensures (h : Yields x P) : Ensures x P := by
  intro events a ha
  obtain ⟨b, hb, hP⟩ := h events
  rw [hb] at ha
  cases ha
  exact hP

theorem Yields.mono (h : Yields x P) (hP : ∀ a, P a → P' a) : Yields x P' := by
  intro events
  obtain ⟨a, ha, hPa⟩ := h events
  exact ⟨a, ha, hP a hPa⟩

theorem Yields.pure {a : α} (h : P a) : Yields (pure a) P := fun _ => ⟨a, rfl, h⟩

theorem Yields.lift {y : Checked α} (h : Checked.Yields y P) : Yields (liftM y) P := by
  obtain ⟨a, rfl, ha⟩ := h
  exact fun _ => ⟨a, rfl, ha⟩

theorem Yields.tell {e : Event} {P : Unit → Prop} (h : P ()) : Yields (tell e) P :=
  fun _ => ⟨(), rfl, h⟩

theorem Yields.bind (h : Yields x P) (hf : ∀ a, P a → Yields (f a) Q) : Yields (x >>= f) Q := by
  intro events
  obtain ⟨a, ha, hPa⟩ := h events
  rw [outcome_bind]
  generalize outcome x events = r at ha
  obtain ⟨r, told⟩ := r
  cases ha
  exact hf a hPa told

theorem Ensures.mono (h : Ensures x P) (hP : ∀ a, P a → P' a) : Ensures x P' :=
  fun events a ha => hP a (h events a ha)

theorem Ensures.pure {a : α} (h : P a) : Ensures (Pure.pure a) P := by
  intro events b hb
  cases hb
  exact h

theorem Ensures.trivial : Ensures x fun _ => True := fun _ _ _ => True.intro

theorem Ensures.throw {e : Fault} : Ensures (throw e : Observed α) P := by
  intro events b hb
  cases hb

theorem Ensures.lift {y : Checked α} (h : Checked.Ensures y P) : Ensures (liftM y) P :=
  fun _ a ha => h a ha

theorem Ensures.tell {e : Event} {P : Unit → Prop} (h : P ()) : Ensures (tell e) P :=
  fun _ _ _ => h

theorem Ensures.bind (h : Ensures x P) (hf : ∀ a, P a → Ensures (f a) Q) : Ensures (x >>= f) Q := by
  intro events b hb
  rw [outcome_bind] at hb
  have hx := h events
  generalize outcome x events = r at hb hx
  obtain ⟨r, told⟩ := r
  cases r with
  | error e => cases hb
  | ok a => exact hf a (hx a rfl) told b hb

end Observed

/-! ## Folds and loops -/

/-- What holds with the elements still to come at the start holds with none to come at the end. -/
theorem foldl_keeps {α σ : Type} {f : σ → α → σ} (inv : List α → σ → Prop)
    (step : ∀ a as s, inv (a :: as) s → inv as (f s a)) (as : List α) :
    ∀ s, inv as s → inv [] (as.foldl f s) := by
  induction as with
  | nil => exact fun _ hs => hs
  | cons a as ih => exact fun s hs => ih (f s a) (step a as s hs)

/-- A way to speak of results that goes through sequencing. -/
structure Guarantee (m : Type → Type) [Monad m] where
  holds : {α : Type} → m α → (α → Prop) → Prop
  pure : ∀ {α : Type} {a : α} {P : α → Prop}, P a → holds (Pure.pure a) P
  bind : ∀ {α β : Type} {x : m α} {f : α → m β} {P : α → Prop} {Q : β → Prop},
    holds x P → (∀ a, P a → holds (f a) Q) → holds (x >>= f) Q
  mono : ∀ {α : Type} {x : m α} {P P' : α → Prop}, holds x P → (∀ a, P a → P' a) → holds x P'

def Checked.total : Guarantee Checked := ⟨Yields, .pure, .bind, .mono⟩

def Checked.partly : Guarantee Checked := ⟨Ensures, .pure, .bind, .mono⟩

def Observed.total : Guarantee Observed := ⟨Yields, .pure, .bind, .mono⟩

def Observed.partly : Guarantee Observed := ⟨Ensures, .pure, .bind, .mono⟩

def Checked.decides : Guarantee Checked where
  holds x P := (∃ a, x = .ok a ∧ P a) ∨ ∃ e, x = .error (.compile e)
  pure h := .inl ⟨_, rfl, h⟩
  bind hx hf := by
    rcases hx with ⟨a, rfl, ha⟩ | ⟨e, rfl⟩
    · exact hf a ha
    · exact .inr ⟨e, rfl⟩
  mono h hP := by
    rcases h with ⟨a, ha, hPa⟩ | he
    · exact .inl ⟨a, ha, hP a hPa⟩
    · exact .inr he

def Checked.upTo (faults : Fault → Prop) : Guarantee Checked where
  holds x P := (∃ a, x = .ok a ∧ P a) ∨ ∃ e, x = .error e ∧ faults e
  pure h := .inl ⟨_, rfl, h⟩
  bind hx hf := by
    rcases hx with ⟨a, rfl, ha⟩ | ⟨e, rfl, he⟩
    · exact hf a ha
    · exact .inr ⟨e, rfl, he⟩
  mono h hP := by
    rcases h with ⟨a, ha, hPa⟩ | he
    · exact .inl ⟨a, ha, hP a hPa⟩
    · exact .inr he

theorem Checked.Ensures.of_upTo {faults : Fault → Prop} {x : Checked α} {P : α → Prop}
    (h : (Checked.upTo faults).holds x P) : x.Ensures P := by
  intro a ha
  rcases h with ⟨b, hb, hP⟩ | ⟨e, he, -⟩
  · rw [ha] at hb
    cases hb
    exact hP
  · rw [ha] at he
    cases he

theorem Checked.Yields.of_upTo {faults : Fault → Prop} {x : Checked α} {P : α → Prop}
    (h : (Checked.upTo faults).holds x P) (hnone : ∀ e, ¬ faults e) : x.Yields P :=
  h.resolve_right fun he => he.elim fun e he => hnone e he.2

def Observed.decides : Guarantee Observed where
  holds x P := ∀ told, Checked.decides.holds (x.outcome told).1 P
  pure h _ := Checked.decides.pure h
  bind {α β x f P Q} hx hf told := by
    rw [Observed.outcome_bind]
    have h := hx told
    generalize x.outcome told = r at h ⊢
    obtain ⟨r, told'⟩ := r
    rcases h with ⟨a, rfl, ha⟩ | ⟨e, rfl⟩
    · exact hf a ha told'
    · exact .inr ⟨e, rfl⟩
  mono h hP told := Checked.decides.mono (h told) hP

def Observed.silent : Guarantee Observed where
  holds x P := ∀ told, ∃ a, x.outcome told = (.ok a, told) ∧ P a
  pure h _ := ⟨_, rfl, h⟩
  bind {α β x f P Q} hx hf told := by
    obtain ⟨a, ha, hPa⟩ := hx told
    rw [Observed.outcome_bind, ha]
    exact hf a hPa told
  mono h hP told := by
    obtain ⟨a, ha, hPa⟩ := h told
    exact ⟨a, ha, hP a hPa⟩

theorem Observed.decides_lift {y : Checked α} {P : α → Prop}
    (h : Checked.decides.holds y P) : Observed.decides.holds (liftM y) P := fun _ => h

theorem Observed.silent_lift {y : Checked α} {P : α → Prop} (h : y.Yields P) :
    Observed.silent.holds (liftM y) P := by
  obtain ⟨a, rfl, ha⟩ := h
  exact fun _ => ⟨a, rfl, ha⟩

namespace Guarantee

variable {m : Type → Type} [Monad m] {α σ : Type} {turn : σ → m (Turn σ α)} {bound : Nat}

theorem foldlM (g : Guarantee m) {f : σ → α → m σ} (inv : List α → σ → Prop)
    (step : ∀ a as s, inv (a :: as) s → g.holds (f s a) (inv as)) (as : List α) :
    ∀ s, inv as s → g.holds (as.foldlM f s) (inv []) := by
  induction as with
  | nil => intro s hs; exact g.pure hs
  | cons a as ih =>
    intro s hs
    rw [foldlM_cons]
    exact g.bind (step a as s hs) ih

theorem countM {β : Type} (g : Guarantee m) {f : α → m β} (test : β → Bool) {p : α → Bool} (as : List α)
    (h : ∀ a ∈ as, g.holds (f a) fun b => test b = p a) :
    g.holds (as.foldlM (fun (n : Int) a => do return if test (← f a) then n + 1 else n) 0)
      (· = (as.countP p : Nat)) := by
  refine g.mono (g.foldlM (fun rest (n : Int) => rest ⊆ as ∧
    n + (rest.countP p : Nat) = (as.countP p : Nat)) (fun a rest n hn => ?_) as 0
      ⟨List.Subset.refl as, Int.zero_add _⟩) fun n hn => by simpa using hn.2
  obtain ⟨hsub, hn⟩ := hn
  refine g.bind (h a (hsub mem_cons_self)) fun b hb =>
    g.pure ⟨fun c hc => hsub (mem_cons_of_mem _ hc), ?_⟩
  rw [countP_cons, ← hb] at hn
  split
  · next hv =>
    rw [if_pos hv] at hn
    omega
  · next hv =>
    rw [if_neg hv] at hn
    omega

theorem mapM [LawfulMonad m] {β : Type} (g : Guarantee m) {f : α → m β} {R : α → β → Prop} (as : List α)
    (h : ∀ a ∈ as, g.holds (f a) (R a)) : g.holds (as.mapM f) (List.Forall₂ R as) := by
  induction as with
  | nil => exact g.pure .nil
  | cons a as ih =>
    rw [mapM_cons]
    refine g.bind (h a mem_cons_self) fun b hb => ?_
    refine g.bind (ih (forall_mem_cons.mp h).2) fun bs hbs => ?_
    exact g.pure (.cons hb hbs)

theorem forIn (g : Guarantee m) {p : α → Prop} {f : α → PUnit → m (ForInStep PUnit)} (as : List α)
    (h : ∀ a ∈ as, g.holds (f a ⟨⟩) fun r => r = .yield ⟨⟩ ∧ p a) :
    g.holds (forIn as PUnit.unit f) fun _ => ∀ a ∈ as, p a := by
  induction as with
  | nil => exact g.pure (forall_mem_nil _)
  | cons a as ih =>
    rw [forIn_cons]
    refine g.bind (h a mem_cons_self) fun r hr => ?_
    rw [hr.1]
    refine g.mono (ih (forall_mem_cons.mp h).2) fun _ has b hb => ?_
    rcases mem_cons.mp hb with rfl | hb
    · exact hr.2
    · exact has b hb

def Reaches (next : σ → Prop) (done : α → Prop) : Turn σ α → Prop
  | .next s => next s
  | .done a => done a

section Loops

variable (g : Guarantee m)

theorem turns (inv : Nat → σ → Prop) (post : α → Prop)
    (step : ∀ n s, inv n s → g.holds (turn s) (Reaches (inv (n + 1)) post)) (k : Nat) :
    ∀ n s, inv n s → g.holds (Loop.turns turn k s) (Reaches (inv (n + Loop.allowance k)) post) := by
  induction k with
  | zero => exact step
  | succ k ih =>
    intro n s hs
    rw [Loop.turns, Loop.allowance, ← Nat.add_assoc]
    refine g.bind (ih n s hs) fun t ht => ?_
    cases t with
    | done a => exact g.pure ht
    -- the second half starts where the first half has stopped
    | next s' => exact ih _ s' ht

variable [MonadExceptOf Fault m]

theorem growing (inv : Nat → σ → Prop) (post : α → Prop)
    (step : ∀ n s, inv n s → g.holds (turn s) (Reaches (inv (n + 1)) post)) (rounds : Nat) :
    ∀ k n s, inv n s → (∀ n' s', n + Loop.allowance (k + rounds) ≤ n' + Loop.allowance k → inv n' s' →
      g.holds (throw (.crash .exhausted) : m α) post) → g.holds (Loop.growing turn rounds k s) post := by
  induction rounds with
  | zero => exact fun k n s hs exhausted => exhausted n s (Nat.le_refl _) hs
  | succ rounds ih =>
    intro k n s hs exhausted
    rw [Loop.growing]
    refine g.bind (g.turns inv post step k n s hs) fun t ht => ?_
    cases t with
    | done a => exact g.pure ht
    | next s' =>
      refine ih (k + 1) _ s' ht fun n' s' hn => exhausted n' s' ?_
      rw [show k + 1 + rounds = k + (rounds + 1) by omega, Loop.allowance] at hn
      omega

/-- A loop whose turns lessen a measure ends, and its last turn says what the result is like. -/
theorem run (inv : σ → Prop) (measure : σ → Nat) (post : α → Prop)
    (step : ∀ s, inv s → g.holds (turn s) (Reaches (fun s' => inv s' ∧ measure s' < measure s) post))
    {s : σ} (hs : inv s) (hm : measure s < Loop.allowance (bound + Loop.patience)) :
    g.holds (Loop.run bound turn s) post := by
  refine g.growing (fun n s' => inv s' ∧ measure s' + n ≤ measure s) post (fun n s' hs' => ?_) _ 0 0 s
    ⟨hs, Nat.le_refl _⟩ fun n' s' hn hs' => ?_
  · refine g.mono (step s' hs'.1) fun t ht => ?_
    cases t with
    | done a => exact ht
    | next s'' => exact ⟨ht.1, by have := ht.2; have := hs'.2; omega⟩
  · have hlast := hs'.2
    rw [Nat.zero_add, Nat.zero_add, Loop.allowance, Loop.allowance] at hn
    omega

/-- Where running out of turns counts as fulfilling everything, no measure is needed. -/
theorem run_of_exhausted (inv : σ → Prop) (post : α → Prop)
    (step : ∀ s, inv s → g.holds (turn s) (Reaches inv post))
    (exhausted : g.holds (throw (.crash .exhausted) : m α) post) {s : σ} (hs : inv s) :
    g.holds (Loop.run bound turn s) post :=
  g.growing (fun _ => inv) post (fun _ => step) _ 0 0 s hs fun _ _ _ _ => exhausted

end Loops

end Guarantee

end GameNet
