import GameNet.Proofs.Calls
import GameNet.Proofs.Compile.Verified

/-!
Everything that can be asked of a machine, in any number and order.

`Request.told` answers from the bits of the bases alone.
-/

namespace GameNet

open List

inductive Request where
  | call (c : Call)
  | legalMoves (role : Nat)
  | isTerminal
  | goalValue (role : Nat)
  | currentState

inductive Reply where
  | state (s : Option BaseState)
  | moves (legals : List CompId)
  | terminal (b : Bool)
  | goal (value : Option Nat)
  deriving DecidableEq

namespace Machine

def ask (m : Machine) : Request → Checked (Reply × Machine)
  | .call c => do
    let (s, m) ← c.answer m
    return (.state s, m)
  | .legalMoves role => do return (.moves (← m.legalMoves role), m)
  | .isTerminal => do return (.terminal (← m.isTerminal), m)
  | .goalValue role => do
    let (g, m) ← m.goalValue role
    return (.goal g, m)
  | .currentState => do return (.state (some (← m.currentState)), m)

def asked (m : Machine) (r : Request) : Machine :=
  match m.ask r with
  | .ok (_, m) => m
  | .error _ => m

def replies (m : Machine) : List Request → List (Checked Reply)
  | [] => []
  | r :: rs => (m.ask r).map (·.1) :: (m.asked r).replies rs

theorem reply_call (m : Machine) (c : Call) :
    (m.ask (.call c)).map (·.1) = ((c.answer m).map (·.1)).map .state := by
  rw [ask]
  cases c.answer m <;> rfl

theorem asked_call (m : Machine) (c : Call) : m.asked (.call c) = c.after m := by
  rw [asked, ask, Call.after]
  cases c.answer m <;> rfl

theorem asked_of_ask {m m' : Machine} {r : Request} {reply : Reply} (h : m.ask r = .ok (reply, m')) :
    (m.ask r).map (·.1) = .ok reply ∧ m.asked r = m' := by
  rw [asked, h]
  exact ⟨rfl, rfl⟩

end Machine

/-! ## Answers from the bits -/

namespace Network

theorem bitsOf_ofBools {net : Network} {bits : List Bool} (h : bits.length = net.bases.length) :
    net.bitsOf (.ofBools bits) = bits := by
  refine ext_getElem (by rw [bitsOf, length_map, length_range, h]) fun i hi hi' => ?_
  simp only [bitsOf, getElem_map, getElem_range, BaseState.get_ofBools,
    getD_eq_getElem?_getD, getElem?_eq_getElem hi', Option.getD_some]

def legalsIn (net : Network) (bits : List Bool) (role : Nat) : List CompId :=
  (net.players[role]?).elim [] fun p => p.legals.filter (net.eval (net.reading bits []))

def goalIn (net : Network) (bits : List Bool) (role : Nat) : Option Nat :=
  (net.players[role]?).bind fun p => (p.goals.find? (net.eval (net.reading bits []))).bind fun g =>
    (net.proposition? g).bind (·.goal)

end Network

namespace Request

open Network

def told (net : Network) (bits : List Bool) : Request → Checked Reply × List Bool
  | .call c => ((c.told net bits).1.map .state, (c.told net bits).2)
  | .legalMoves role => (.ok (.moves (net.legalsIn bits role)), bits)
  | .isTerminal => (.ok (.terminal (net.eval (net.reading bits []) net.terminal)), bits)
  | .goalValue role => (.ok (.goal (net.goalIn bits role)), bits)
  | .currentState => (.ok (.state (some (.ofBools bits))), bits)

def allTold (net : Network) (bits : List Bool) : List Request → List (Checked Reply)
  | [] => []
  | r :: rs => (r.told net bits).1 :: allTold net (r.told net bits).2 rs

def Apart (net : Network) (strategy : Strategy) : Request → Prop
  | .call c => c.Apart net strategy
  | _ => True

end Request

namespace Checked

variable {α : Type} {f : α → Checked Bool} {g : α → Bool}

theorem findM?_yields (as : List α) (h : ∀ a ∈ as, f a = .ok (g a)) : as.findM? f = .ok (as.find? g) := by
  induction as with
  | nil => rfl
  | cons a as ih =>
    rw [List.findM?, h a mem_cons_self, find?_cons]
    cases ha : g a with
    | true => rfl
    | false => exact ih (forall_mem_cons.mp h).2

end Checked

/-! ## What a machine replies -/

namespace SingleMachine.Showing

open Network

variable {net : Network} {bits : List Bool} {m : SingleMachine}
variable (h : Showing net bits [] m)
include h

theorem get_value (hp : net.Primed) {c : CompId}
    (hc : net.contains c) : (do return (← m.net.get c).value : Checked Bool) =
      .ok (net.eval (net.reading bits []) c) := by
  have hv := h.valueAt hp net.choosable_nil hc
  have hlive : m.net.contains c := by
    rw [h.same, (recounts_evaluated net bits []).contains]
    exact hc
  obtain ⟨k, hk⟩ := contains_iff.mp hlive
  rw [get_of_get? hk]
  rw [valueAt_of_get? hk] at hv
  exact congrArg Except.ok hv

theorem players : m.net.players = net.players := by
  rw [h.same]
  rfl

theorem legalMoves (hp : net.Primed) (hc : net.Cast) (role : Nat) :
    m.legalMoves role = .ok (net.legalsIn bits role) := by
  unfold SingleMachine.legalMoves legalsIn
  rw [h.players]
  cases hrole : net.players[role]? with
  | none => rfl
  | some p =>
    refine Checked.filterM_yields p.legals fun l hl => h.get_value hp ?_
    exact contains_of_isRole (hc.legal l (mem_flatMap.mpr ⟨p, mem_of_getElem? hrole, hl⟩)).1

theorem isTerminal (hp : net.Primed) (hc : net.Cast) :
    m.isTerminal = .ok (net.eval (net.reading bits []) net.terminal) := by
  have hterm : m.net.terminal = net.terminal := by
    rw [h.same]
    rfl
  rw [SingleMachine.isTerminal, hterm]
  exact h.get_value hp (contains_of_isRole hc.terminal)

theorem goalValue (hp : net.Primed) (hc : net.Cast) (role : Nat) :
    m.goalValue role = .ok (net.goalIn bits role) := by
  unfold SingleMachine.goalValue goalIn
  rw [h.players]
  cases hrole : net.players[role]? with
  | none => rfl
  | some p =>
    have hlive : ∀ g ∈ p.goals, net.contains g := fun g hg =>
      contains_of_isRole (hc.goal g (mem_flatMap.mpr ⟨p, mem_of_getElem? hrole, hg⟩))
    dsimp only
    rw [Checked.findM?_yields p.goals fun g hg => h.get_value hp (hlive g hg)]
    cases hfind : p.goals.find? (net.eval (net.reading bits [])) with
    | none =>
      rw [Option.bind_some, hfind]
      rfl
    | some g =>
      obtain ⟨k, hk⟩ := contains_iff.mp (hlive g (mem_of_find?_eq_some hfind))
      obtain ⟨n, hk'⟩ := (recounts_evaluated net bits []).get? hk
      rw [← h.same] at hk'
      rw [Option.bind_some, hfind, Option.bind_some, proposition?_of_get? hk]
      dsimp only [bind, Except.bind]
      rw [get_of_get? hk']
      rfl

end SingleMachine.Showing

namespace Machine

open Network

variable {net : Network} {bits : List Bool} {m m' : Machine} {r : Request}
  {A : List Bool → Machine → Prop}

structure Tracks (net : Network) (A : List Bool → Machine → Prop) (bits : List Bool) (m : Machine)
    (r : Request) : Prop where
  reply : (m.ask r).map (·.1) = (r.told net bits).1
  next : A (r.told net bits).2 (m.asked r)

theorem Tracks.of_call {c : Call} (hanswer : (c.answer m).map (·.1) = (c.told net bits).1)
    (h : A (c.told net bits).2 (c.after m)) : Tracks net A bits m (.call c) :=
  ⟨by rw [reply_call, hanswer]; rfl, by rw [asked_call]; exact h⟩

theorem Tracks.of_ask {reply : Reply} (hask : m.ask r = .ok (reply, m')) (h : A bits m')
    (ht : r.told net bits = (.ok reply, bits) := by rfl) : Tracks net A bits m r := by
  obtain ⟨hreply, rfl⟩ := asked_of_ask hask
  refine ⟨?_, ?_⟩
  · rw [ht, hreply]
  · rw [ht]
    exact h

theorem Tracks.of_goalValue {role : Nat} (hv : m.goalValue role = .ok (net.goalIn bits role, m'))
    (h : A bits m') : Tracks net A bits m (.goalValue role) := by
  have hask : m.ask (.goalValue role) = .ok (.goal (net.goalIn bits role), m') := by rw [ask, hv]; rfl
  exact .of_ask hask h

theorem Tracks.of_currentState (hs : m.currentState = .ok (.ofBools bits)) (h : A bits m) :
    Tracks net A bits m .currentState := by
  have hask : m.ask .currentState = .ok (.state (some (.ofBools bits)), m) := by rw [ask, hs]; rfl
  exact .of_ask hask h

theorem replies_eq_allTold {rs : List Request} (h : A bits m)
    (hstep : ∀ r ∈ rs, ∀ {bits m}, A bits m → Tracks net A bits m r) :
    m.replies rs = Request.allTold net bits rs ∧ ∃ bits', A bits' (rs.foldl asked m) := by
  induction rs generalizing bits m with
  | nil => exact ⟨rfl, bits, h⟩
  | cons r rs ih =>
    obtain ⟨hreply, hnext⟩ := hstep r mem_cons_self h
    obtain ⟨hreplies, hlast⟩ := ih hnext (forall_mem_cons.mp hstep).2
    rw [replies, Request.allTold, hreply, hreplies]
    exact ⟨rfl, hlast⟩

section

variable (h : SingleMachine.Showing net bits [] m.player) (hp : net.Primed) (hc : net.Cast)
include h hp hc

theorem ask_legalMoves (role : Nat) :
    m.ask (.legalMoves role) = .ok (.moves (net.legalsIn bits role), m) := by
  dsimp only [ask, legalMoves]
  rw [h.legalMoves hp hc]
  rfl

theorem ask_isTerminal :
    m.ask .isTerminal = .ok (.terminal (net.eval (net.reading bits []) net.terminal), m) := by
  dsimp only [ask, isTerminal]
  rw [h.isTerminal hp hc]
  rfl

end

end Machine

def SingleMachine.At (net : Network) (strategy : Strategy) (bits : List Bool) (m : Machine) : Prop :=
  bits.length = net.bases.length ∧
    ∃ single, m = .single single ∧ single.strategy = strategy ∧ Showing net bits [] single

theorem SingleMachine.At.tracks {net : Network} {strategy : Strategy} {bits : List Bool} {m : Machine}
    (h : At net strategy bits m) (hp : net.Primed) (hc : net.Cast) {r : Request}
    (hd : r.Apart net strategy) : m.Tracks net (At net strategy) bits r := by
  have hstay := h
  obtain ⟨hlen, m, rfl, rfl, h⟩ := h
  cases r with
  | call c =>
    obtain ⟨hanswer, m', hafter, hst, hshow⟩ := c.tracked hp h hd
    exact .of_call hanswer ⟨c.length_told net hlen, m', hafter, hst, hshow⟩
  | legalMoves role => exact .of_ask (Machine.ask_legalMoves (m := .single m) h hp hc role) hstay
  | isTerminal => exact .of_ask (Machine.ask_isTerminal (m := .single m) h hp hc) hstay
  | goalValue role => exact .of_goalValue (by rw [Machine.goalValue, h.goalValue hp hc]; rfl) hstay
  | currentState => exact .of_currentState (h.currentState hp hlen) hstay

namespace Request

open Network

variable {net : Network}

def Distinct : Request → Prop
  | .call (.next legals) => legals.Nodup
  | _ => True

instance : (r : Request) → Decidable r.Distinct
  | .call (.next legals) => inferInstanceAs (Decidable legals.Nodup)
  | .call (.update _) | .call .reset => inferInstanceAs (Decidable True)
  | .legalMoves _ | .isTerminal | .goalValue _ | .currentState => inferInstanceAs (Decidable True)

theorem Distinct.apart (hc : net.Cast) {r : Request} (h : r.Distinct) (strategy : Strategy) :
    r.Apart net strategy := by
  cases r with
  | call c =>
    cases c with
    | next legals =>
      refine fun _ => List.Nodup.filterMap (fun l l' i hl hl' => ?_) h
      have hback := (hc.paired l i hl).2.2.symm.trans (hc.paired l' i hl').2.2
      exact Option.some.inj hback
    | update | reset => exact fun _ => nodup_nil
  | legalMoves | isTerminal | goalValue | currentState => trivial

theorem replies_of_new (hp : net.Primed) (hc : net.Cast) {rs : List Request}
    (hrs : ∀ r ∈ rs, r.Distinct) (strategy : Strategy) :
    (SingleMachine.new net strategy).Yields fun m => (Machine.single m).replies rs =
      allTold net (net.bitsOf (.ofBools net.initialState)) rs := by
  obtain ⟨m, hm, hshow, hst⟩ := SingleMachine.new_yields hp strategy
  refine ⟨m, hm, (Machine.replies_eq_allTold (A := SingleMachine.At net strategy)
    ⟨?_, m, rfl, hst, hshow⟩ fun r hr _ _ h => h.tracks hp hc ((hrs r hr).apart hc _)).1⟩
  rw [bitsOf, length_map, length_range]

end Request

/-! ## Both strategies -/

namespace Listing

open Request

/-- Whatever is asked of it, a machine that evaluates depth first and one that evaluates level by level give
the same replies, as long as no move names a legal twice. -/
theorem replies_depthFirst_eq_byLevel (l : Listing) (hb : l.Balanced) (ha : l.Acyclic) (opts : Options)
    {net : Network} (h : (l.compile opts).listen.1 = .ok net) (rs : List Request)
    (hrs : ∀ r ∈ rs, r.Distinct) :
    ∃ deep wide, SingleMachine.new net .depthFirst = .ok deep ∧ SingleMachine.new net .byLevel = .ok wide ∧
      (Machine.single deep).replies rs = (Machine.single wide).replies rs := by
  obtain ⟨cut, last, hc⟩ := compiled_of_ok hb ha h
  have hfin := hc.finished
  obtain ⟨deep, hdeep, hd⟩ := replies_of_new hfin.primed hfin.formed.toCast hrs .depthFirst
  obtain ⟨wide, hwide, hw⟩ := replies_of_new hfin.primed hfin.formed.toCast hrs .byLevel
  exact ⟨deep, wide, hdeep, hwide, hd.trans hw.symm⟩

def interview (l : Listing) (opts : Options) (strategy : Strategy) (rs : List Request) :
    Checked (List (Checked Reply)) := do
  let net ← (l.compile opts).listen.1
  let m ← SingleMachine.new net strategy
  return (Machine.single m).replies rs

theorem replies_depthFirst_eq_byLevel_lamp : ∃ net deep wide, (lamp.compile {}).listen.1 = .ok net ∧
    SingleMachine.new net .depthFirst = .ok deep ∧ SingleMachine.new net .byLevel = .ok wide ∧
    (Machine.single deep).replies [.call (.next [7]), .call (.next []), .isTerminal] =
      (Machine.single wide).replies [.call (.next [7]), .call (.next []), .isTerminal] := by
  have hok : (lamp.compile {}).listen.1.isOk = true := by decide +kernel
  obtain ⟨net, hnet⟩ := Checked.exists_of_isOk hok
  obtain ⟨deep, wide, h⟩ := replies_depthFirst_eq_byLevel lamp lamp_balanced lamp_acyclic {} hnet
    [.call (.next [7]), .call (.next []), .isTerminal] (by decide)
  exact ⟨net, deep, wide, hnet, h⟩

/-- With the legal of the lamp named twice, the lamp stays on level by level: its input is counted twice, up
and down again, and the gate behind it steps over the count at which it turns off. -/
theorem lamp_pressed_twice : lamp.Balanced ∧ lamp.Acyclic ∧
    lamp.interview {} .depthFirst [.call (.next [7, 7]), .call (.next [])] =
      .ok [.ok (.state (some (.ofBools [true]))), .ok (.state (some (.ofBools [false])))] ∧
    lamp.interview {} .byLevel [.call (.next [7, 7]), .call (.next [])] =
      .ok [.ok (.state (some (.ofBools [true]))), .ok (.state (some (.ofBools [true])))] :=
  ⟨lamp_balanced, lamp_acyclic, by decide +kernel, by decide +kernel⟩

end Listing

end GameNet
