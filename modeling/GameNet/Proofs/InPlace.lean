import GameNet.Proofs.Eval.Recount
import GameNet.Verify

/-!
Counting and checking in place.

A program that holds a single network and writes the counts to it leaves something behind also when it
fails in the middle.
-/

namespace GameNet

/-- A program that owns what it works on. What it has written before a fault stays written. -/
abbrev InPlace (σ : Type) := ExceptT Fault (StateM σ)

namespace InPlace

variable {σ α β : Type} {x : InPlace σ α} {f : α → InPlace σ β} {s s' : σ} {left : α → σ}
  {view : α → β} {y : Checked α} {e : Fault}

def ask (look : σ → Checked α) : InPlace σ α := fun s => (look s, s)

def change (write : σ → σ) : InPlace σ Unit := fun s => (.ok (), write s)

def step (write : σ → Checked σ) : InPlace σ Unit := fun s =>
  match write s with
  | .ok s' => (.ok (), s')
  | .error e => (.error e, s)

def put (look : σ → Checked α) (write : σ → α → σ) : InPlace σ Unit := do
  let a ← ask look
  change (write · a)

def on (x : InPlace σ α) (s : σ) : Checked α × σ := x.run.run s

@[simp] theorem on_ask (look : σ → Checked α) (s : σ) :
    (ask look).on s = (look s, s) := rfl

@[simp] theorem on_change (write : σ → σ) (s : σ) :
    (change write).on s = (.ok (), write s) := rfl

theorem on_bind_ok {a : α} (h : x.on s = (.ok a, s')) : (x >>= f).on s = (f a).on s' := by
  have hx : x s = (.ok a, s') := h
  change (ExceptT.bindCont f (x s).1) (x s).2 = _
  rw [hx]
  rfl

theorem on_bind_error (h : x.on s = (.error e, s')) : (x >>= f).on s = (.error e, s') := by
  have hx : x s = (.error e, s') := h
  change (ExceptT.bindCont f (x s).1) (x s).2 = _
  rw [hx]
  rfl

theorem on_ask_bind_ok {γ : Type} (look : σ → Checked γ) {g : γ → InPlace σ β} {c : γ}
    (h : look s = .ok c) : (ask look >>= g).on s = (g c).on s :=
  on_bind_ok (Prod.ext h rfl)

theorem on_ask_pure_bind {γ : Type} (look : σ → γ) (g : γ → InPlace σ β) (s : σ) :
    ((ask fun s => pure (look s)) >>= g).on s = (g (look s)).on s :=
  on_ask_bind_ok _ rfl

theorem on_ask_bind_error {γ : Type} {look : σ → Checked γ} {g : γ → InPlace σ β}
    (h : look s = .error e) : (ask look >>= g).on s = (.error e, s) :=
  on_bind_error (Prod.ext h rfl)

/-- A program gives the outcome of a function, and unless it fails it leaves what the function says. -/
structure Follows (r : Checked β × σ) (y : Checked α) (view : α → β) (left : α → σ) :
    Prop where
  ok : ∀ a, y = .ok a → r = (.ok (view a), left a)
  error : ∀ e, y = .error e → r.1 = .error e

theorem Follows.of_ok {r : Checked β × σ}
    {a : α} (hy : y = .ok a) (hr : r = (.ok (view a), left a)) : Follows r y view left := by
  subst hy hr
  exact ⟨fun b hb => by cases hb; rfl, fun e he => by cases he⟩

theorem Follows.fail : Follows (.error e, s) (.error e) view left :=
  ⟨fun b hb => (by cases hb), fun e' he => by cases he; rfl⟩

theorem Follows.ask (look : σ → Checked α) : Follows ((ask look).on s) (look s) id fun _ => s :=
  ⟨fun _ ha => Prod.ext ha rfl, fun _ he => he⟩

theorem Follows.step (write : σ → Checked σ) :
    Follows ((step write).on s) (write s) (fun _ => ()) id := by
  have hstep : (InPlace.step write).on s = match write s with
      | .ok s' => (.ok (), s')
      | .error e => (.error e, s) := rfl
  rw [hstep]
  cases write s with
  | ok s' => exact .of_ok (a := s') rfl rfl
  | error e => exact .fail

theorem Follows.bind {γ δ : Type} {z : α → Checked γ} {p : InPlace σ β} {q : β → InPlace σ δ} {view' : γ → δ}
    {left' : γ → σ} (h : Follows (p.on s) y view left)
    (hz : ∀ a, Follows ((q (view a)).on (left a)) (z a) view' left') :
    Follows ((p >>= q).on s) (y >>= z) view' left' := by
  cases y with
  | ok a =>
    rw [on_bind_ok (h.ok a rfl)]
    exact hz a
  | error e =>
    have hp : p.on s = (.error e, (p.on s).2) := Prod.ext (h.error e rfl) rfl
    rw [on_bind_error hp]
    exact .fail

theorem Follows.map {γ : Type} {r : Checked β × σ} {g : α → γ} {view : γ → β}
    {left : γ → σ} (h : Follows r y (fun a => view (g a)) fun a => left (g a)) :
    Follows r (y >>= fun a => pure (g a)) view left := by
  cases y with
  | ok a => exact .of_ok rfl (h.ok a rfl)
  | error e => exact ⟨fun _ hc => (by cases hc), fun e' he' => by cases he'; exact h.error e rfl⟩

theorem Follows.put (look : σ → Checked α) (write : σ → α → σ) :
    Follows ((put look write).on s) (look s) (fun _ => ()) (write s) := by
  unfold InPlace.put
  cases hx : look s with
  | ok a =>
    rw [on_ask_bind_ok look hx]
    exact .of_ok rfl rfl
  | error e =>
    rw [on_ask_bind_error hx]
    exact .fail

theorem Follows.forM {act : α → InPlace σ PUnit} {write : σ → α → Checked σ}
    (h : ∀ s a, Follows ((act a).on s) (write s a) (fun _ => ⟨⟩) id) (as : List α)
    (s : σ) : Follows ((as.forM act).on s) (as.foldlM write s) (fun _ => ⟨⟩) id := by
  induction as generalizing s with
  | nil => exact .of_ok (a := s) rfl rfl
  | cons a as ih =>
    rw [List.foldlM_cons]
    exact .bind (h s a) fun s' => ih s'

def leaves (s : σ) : Guarantee (InPlace σ) where
  holds x P := (x.on s).2 = s ∧ ∀ a, (x.on s).1 = .ok a → P a
  pure h := ⟨rfl, fun a ha => by cases ha; exact h⟩
  bind {α β x f P Q} hx hf := by
    rcases hr : x.on s with ⟨e | a, s'⟩
    · have hs : s' = s := by
        have h := hx.1
        rwa [hr] at h
      rw [on_bind_error hr, hs]
      exact ⟨rfl, fun b hb => by cases hb⟩
    · have hs : s' = s := by
        have h := hx.1
        rwa [hr] at h
      rw [on_bind_ok hr, hs]
      exact hf a (hx.2 a (by rw [hr]))
  mono h hP := ⟨h.1, fun a ha => hP a (h.2 a ha)⟩

theorem leaves_ask {look : σ → Checked α} {P : α → Prop} (h : (look s).Ensures P) :
    (leaves s).holds (ask look) P := ⟨rfl, h⟩

theorem leaves_throw {P : α → Prop} : (leaves s).holds (throw e) P :=
  ⟨rfl, fun a ha => by cases ha⟩

end InPlace

/-! ## Counting in place -/

namespace Recount

open Network

structure Walk where
  stack : List (CompId × Bool)
  opened : List CompId := []
  closed : List CompId := []

def Walk.through (w : Walk) (net : Network) : State := ⟨net, w.stack, w.opened, w.closed⟩

def State.walk (s : State) : Walk := ⟨s.stack, s.opened, s.closed⟩

def turnInPlace (compare : Bool) (w : Walk) : InPlace Network (Turn Walk Unit) :=
  match w.stack with
  | [] => return .done ()
  | (c, false) :: stack =>
    if w.opened.contains c then return .next { w with stack }
    else do
      let opened := c :: w.opened
      let k ← InPlace.ask (·.get c)
      let fresh := k.inputs.filter fun i => !opened.contains i
      return .next { w with stack := fresh.map (·, false) ++ (c, true) :: stack, opened }
  | (c, true) :: stack => do
    let n ← InPlace.ask fun net => count (({ w with stack } : Walk).through net) c
    let k ← InPlace.ask (·.get c)
    if compare && k.count ≠ n then
      throw (.compile (.countMismatch c k.op.name k.count n))
    InPlace.change (·.modify c fun k => { k with count := n })
    return .next { w with stack, closed := c :: w.closed }

def view : Turn State Network → Turn Walk Unit
  | .next s => .next s.walk
  | .done _ => .done ()

def left : Turn State Network → Network
  | .next s => s.net
  | .done net => net

theorem turnInPlace_follows (compare : Bool) (s : State) :
    InPlace.Follows ((turnInPlace compare s.walk).on s.net) (turn compare s) view left := by
  obtain ⟨net, stack, opened, closed⟩ := s
  change InPlace.Follows ((turnInPlace compare ⟨stack, opened, closed⟩).on net) _ view left
  rcases stack with _ | ⟨⟨c, _ | _⟩, stack⟩
  · exact .of_ok (a := .done net) rfl rfl
  · unfold turnInPlace turn
    dsimp only
    by_cases hopen : opened.contains c = true
    · rw [if_pos hopen, if_pos hopen]
      exact .of_ok (a := .next ⟨net, stack, opened, closed⟩) rfl rfl
    · rw [if_neg hopen, if_neg hopen]
      exact .bind (.ask _) fun k => .of_ok (a := .next _) rfl rfl
  · -- whatever can fail is asked for before the count is written
    refine .bind (.ask _) fun n => .bind (.ask _) fun k => ?_
    dsimp only [id]
    by_cases hcond : (compare && decide (k.count ≠ n)) = true
    · rw [if_pos hcond, if_pos hcond]
      exact .fail
    · rw [if_neg hcond, if_neg hcond]
      exact .of_ok (a := .next _) rfl rfl

theorem turns_follows (compare : Bool) (k : Nat) (s : State) :
    InPlace.Follows ((Loop.turns (turnInPlace compare) k s.walk).on s.net)
      (Loop.turns (turn compare) k s) view left := by
  induction k generalizing s with
  | zero => exact turnInPlace_follows compare s
  | succ k ih =>
    refine .bind (ih s) fun t => ?_
    cases t with
    | next s' => exact ih s'
    | done net => exact .of_ok (a := .done net) rfl rfl

theorem growing_follows (compare : Bool) (rounds k : Nat) (s : State) :
    InPlace.Follows ((Loop.growing (turnInPlace compare) rounds k s.walk).on s.net)
      (Loop.growing (turn compare) rounds k s) (fun _ => ()) id := by
  induction rounds generalizing k s with
  | zero => exact .fail
  | succ rounds ih =>
    refine .bind (turns_follows compare k s) fun t => ?_
    cases t with
    | next s' => exact ih (k + 1) s'
    | done net => exact .of_ok (a := net) rfl rfl

theorem turnInPlace_leaves (net : Network) (w : Walk) :
    (InPlace.leaves net).holds (turnInPlace true w) (Guarantee.Reaches (fun _ => True) fun _ => True) := by
  have hnext : ∀ w' : Walk, (InPlace.leaves net).holds (pure (.next w'))
      (Guarantee.Reaches (fun _ => True) fun _ : Unit => True) := fun w' =>
    (InPlace.leaves net).pure trivial
  obtain ⟨stack, opened, closed⟩ := w
  unfold turnInPlace
  rcases stack with _ | ⟨⟨c, _ | _⟩, stack⟩
  · exact (InPlace.leaves net).pure trivial
  · dsimp only
    split
    · exact hnext _
    · exact (InPlace.leaves net).bind (InPlace.leaves_ask (P := fun _ => True) fun _ _ => trivial)
        fun k _ => hnext _
  refine (InPlace.leaves net).bind (InPlace.leaves_ask (P := fun _ => True) fun _ _ => trivial)
    fun n _ => ?_
  refine (InPlace.leaves net).bind (InPlace.leaves_ask (P := fun k => net.get? c = some k)
    fun k hk => get?_of_get hk) fun k hk => ?_
  by_cases hcount : k.count = n
  · -- the count that is written stands there already
    have hsame : (net.modify c fun k => { k with count := n }) = net := by
      refine (modify_congr fun x hx => ?_).trans (modify_id net c)
      rw [hk] at hx
      cases hx
      rw [← hcount]
      rfl
    rw [if_neg (by simp [hcount])]
    refine (InPlace.leaves net).bind (P := fun _ => True) ⟨?_, fun _ _ => trivial⟩ fun _ _ => hnext _
    exact hsame
  · -- a mismatch is reported before anything is written
    rw [if_pos (by simp [hcount])]
    exact (InPlace.leaves net).bind (P := fun _ => False) InPlace.leaves_throw fun _ h => h.elim

end Recount

namespace Network

def recountInPlace (roots : List CompId) (compare : Bool) : InPlace Network Unit := do
  let extent ← InPlace.ask fun net => pure net.extent
  Loop.run (extent + roots.length + 1) (Recount.turnInPlace compare) { stack := roots.map (·, false) }

def verifyInPlace (level : VerifyLevel) (maxFanIn : Nat) : InPlace Network Unit :=
  match level with
  | .none => pure ()
  | .invariants => InPlace.ask (·.checkInvariants maxFanIn)
  | .full => do
    InPlace.ask (·.checkInvariants maxFanIn)
    let roots ← InPlace.ask fun net => pure net.sinks
    recountInPlace roots true

section

variable (net : Network) (roots : List CompId)

theorem recountInPlace_follows (compare : Bool) :
    InPlace.Follows ((recountInPlace roots compare).on net) (net.recount roots compare) (fun _ => ()) id := by
  unfold recountInPlace recount Loop.run
  rw [InPlace.on_ask_pure_bind]
  exact Recount.growing_follows compare _ 0 { net, stack := roots.map (·, false) }

theorem recountInPlace_leaves : ((recountInPlace roots true).on net).2 = net :=
  ((InPlace.leaves net).bind (InPlace.leaves_ask (P := fun _ => True) fun _ _ => trivial) fun _ _ =>
    (InPlace.leaves net).run_of_exhausted (fun _ => True) (fun _ => True)
      (fun w _ => Recount.turnInPlace_leaves net w) InPlace.leaves_throw trivial).1

theorem recountInPlace_compare :
    (recountInPlace roots true).on net = ((net.recount roots true).map fun _ => (), net) := by
  refine Prod.ext ?_ (recountInPlace_leaves net roots)
  have h := recountInPlace_follows net roots true
  cases hr : net.recount roots true with
  | ok net' => rw [h.ok net' hr]; rfl
  | error e => exact h.error e hr

theorem recount_compare_ensures : (net.recount roots true).Ensures (· = net) := by
  intro net' hr
  have hleft := recountInPlace_leaves net roots
  rw [(recountInPlace_follows net roots true).ok net' hr] at hleft
  exact hleft

end

theorem verifyInPlace_on (net : Network) (level : VerifyLevel) (maxFanIn : Nat) :
    (verifyInPlace level maxFanIn).on net = (net.verify level maxFanIn, net) := by
  cases level with
  | none => rfl
  | invariants => rfl
  | full =>
    unfold verifyInPlace verify
    have hask := InPlace.on_ask (fun net => net.checkInvariants maxFanIn) net
    cases hc : net.checkInvariants maxFanIn with
    | error e =>
      rw [hc] at hask
      exact InPlace.on_bind_error hask
    | ok u =>
      rw [hc] at hask
      refine (InPlace.on_bind_ok hask).trans ((InPlace.on_bind_ok (InPlace.on_ask _ net)).trans ?_)
      rw [recountInPlace_compare]
      rfl

end Network

end GameNet
