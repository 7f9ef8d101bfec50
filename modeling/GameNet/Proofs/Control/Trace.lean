import GameNet.Control.Trace
import GameNet.Proofs.Eval.Recount

/-!
What a trace says of a component.

A flow allows certain values: true allows true, false allows false, and a base allows both.
-/

namespace GameNet

open List

/-! ## Flows -/

namespace Flow

def Covers : Flow → Bool → Prop
  | .true, b => b = Bool.true
  | .false, b => b = Bool.false
  | .base, _ => True

theorem covers_ofBool (b : Bool) : (ofBool b).Covers b := by
  cases b <;> rfl

theorem Covers.not {f : Flow} {b : Bool} (h : f.Covers b) : f.not.Covers (!b) := by
  cases f with
  | base => trivial
  | true => exact congrArg Bool.not h
  | false => exact congrArg Bool.not h

section Lists

variable {cs : List CompId} {flow : CompId → Flow} {v : CompId → Bool}

theorem covers_any (h : ∀ c ∈ cs, (flow c).Covers (v c)) : (any (cs.map flow)).Covers (cs.any v) := by
  unfold any
  split
  · next ht =>
    obtain ⟨c, hc, hf⟩ := mem_map.mp (contains_iff_mem.mp ht)
    have hv := h c hc
    rw [hf] at hv
    exact any_eq_true.mpr ⟨c, hc, hv⟩
  next ht =>
  split
  · trivial
  next hb =>
  refine any_eq_false.mpr fun c hc => ?_
  have hv := h c hc
  cases hf : flow c with
  | true => exact absurd (contains_iff_mem.mpr (mem_map.mpr ⟨c, hc, hf⟩)) ht
  | base => exact absurd (contains_iff_mem.mpr (mem_map.mpr ⟨c, hc, hf⟩)) hb
  | false =>
    rw [hf] at hv
    rw [show v c = Bool.false from hv]
    exact Bool.false_ne_true

theorem all_eq_not_any (fs : List Flow) : all fs = (any (fs.map Flow.not)).not := by
  have hmem : ∀ f, (fs.map Flow.not).contains f.not = fs.contains f := by
    intro f
    have hinj : Function.Injective Flow.not := fun a b => by cases a <;> cases b <;> decide
    rw [Bool.eq_iff_iff, contains_iff_mem, contains_iff_mem, mem_map_of_injective hinj]
  have hfalse : (fs.map Flow.not).contains .true = fs.contains .false := hmem .false
  have hbase : (fs.map Flow.not).contains .base = fs.contains .base := hmem .base
  rw [all, any, hfalse, hbase]
  cases fs.contains .false <;> cases fs.contains .base <;> rfl

theorem covers_all (h : ∀ c ∈ cs, (flow c).Covers (v c)) : (all (cs.map flow)).Covers (cs.all v) := by
  have hall : cs.all v = !cs.any fun c => !v c := by
    rw [not_any_eq_all_not]
    simp only [Bool.not_not]
  rw [all_eq_not_any, map_map, hall]
  exact (covers_any fun c hc => (h c hc).not).not

end Lists

end Flow

/-! ## Queries -/

namespace Tracer

open Network Search

def Knows (t : Tracer) (c : CompId) : Prop := (t.known? c).isSome = true

def flowFor (t : Tracer) (c : CompId) (k : Component) : Flow :=
  let flows := k.inputs.map t.flowOf
  if k.hasRole .base then .base
  else if k.hasRole .input then .ofBool ((t.moves.getD []).contains c)
  else match k.op with
    | .or => .any flows
    | .and => .all flows
    | .not => (flows.head?.map Flow.not).getD (.ofBool k.value)
    | _ => firstOr k flows

def basesWith (t : Tracer) (c : CompId) (k : Component) : List CompId :=
  if k.hasRole .base then c :: t.bases else t.bases

section Queries

variable {net : Network} {t t' : Tracer} {c d : CompId} {k : Component}

theorem known?_learn (t : Tracer) (c d : CompId) (f : Flow) :
    (t.learn c f).known? d = if d = c then some f else t.known? d := by
  rw [known?, learn, lookup_cons]
  by_cases h : d = c
  · rw [if_pos h, beq_iff_eq.mpr h]
  · rw [if_neg h, beq_false_of_ne h]
    rfl

theorem knows_learn {f : Flow} : (t.learn c f).Knows d ↔ d = c ∨ t.Knows d := by
  rw [Knows, known?_learn]
  by_cases h : d = c
  · simp [h]
  · simp [h, Knows]

theorem eval_cases (t : Tracer) (c : CompId) (k : Component) :
    (k.hasRole .input ∧ t.moves = none ∧ t.eval c k = .error c) ∨ ((k.hasRole .input → t.moves.isSome) ∧
        t.eval c k = .ok ({ t with bases := t.basesWith c k }.learn c (t.flowFor c k))) := by
  obtain ⟨kind, inputs, outputs⟩ := k
  cases kind with
  | proposition p =>
    obtain ⟨role, term⟩ := p
    cases role with
    | input =>
      obtain ⟨moves, known, bases⟩ := t
      cases moves with
      | none => exact .inl ⟨rfl, rfl, rfl⟩
      | some moves => exact .inr ⟨fun _ => rfl, rfl⟩
    | base => exact .inr ⟨fun h => (by cases h), rfl⟩
    | legal | goal | init | terminal | other => exact .inr ⟨fun h => (by cases h), rfl⟩
  | and | or | not | transition | constant => exact .inr ⟨fun h => (by cases h), rfl⟩

/-- What `P` says of a tracer is kept when a query learns of a component whose inputs are known, and it
leads to `post` where the query ends. -/
structure Carries (net : Network) (c : CompId) (P : Tracer → Prop) (post : Tracer × Traced → Prop) :
    Prop where
  learns : ∀ t d k, P t → net.get? d = some k → (∀ i ∈ k.inputs, t.Knows i) →
    (k.hasRole .input = true → t.moves.isSome = true) →
    P ({ t with bases := t.basesWith d k }.learn d (t.flowFor d k))
  stops : ∀ t d k, P t → net.Upstream [c] d → net.get? d = some k → k.hasRole .input = true →
    t.moves = none → post (t, .input d)
  ends : ∀ t, P t → (∀ d, net.Upstream [c] d → t.Knows d) → post (t, .flow (t.flowOf c))

structure Tracing (net : Network) (c : CompId) (P : Tracer → Prop) (s : State) : Prop where
  search : Searching net [c] s.stack s.opened s.tracer.Knows
  holds : P s.tracer

section Turns

variable {P : Tracer → Prop} {post : Tracer × Traced → Prop} {stack : List (CompId × Bool)}
  {opened : List CompId}

theorem Tracing.opens (h : Tracing net c P ⟨t, (d, false) :: stack, opened⟩) (hnew : d ∉ opened)
    (hunknown : ¬ t.Knows d) (hk : net.get? d = some k) :
    Tracing net c P ⟨t, (k.inputs.filter fun i => (t.known? i).isNone && !(d :: opened).contains i).map
      (·, false) ++ (d, true) :: stack, d :: opened⟩ := by
  refine ⟨h.search.opens hnew hunknown (fun i hi => ?_) fun i hi => ?_, h.holds⟩
  · rw [inputsOf_of_get? hk]
    exact mem_of_mem_filter hi
  rw [inputsOf_of_get? hk] at hi
  by_cases hknown : t.Knows i
  · exact .inr (.inl hknown)
  by_cases hopen : i ∈ d :: opened
  · exact .inr (.inr hopen)
  refine .inl (mem_filter.mpr ⟨hi, ?_⟩)
  rw [Bool.and_eq_true, Option.isNone_iff_eq_none, ← Option.not_isSome_iff_eq_none]
  exact ⟨hknown, by simpa using hopen⟩

theorem Tracing.learns (h : Tracing net c P ⟨t, (d, true) :: stack, opened⟩) (ha : net.Acyclic)
    (hcarry : Carries net c P post) (hk : net.get? d = some k) (hmoves : k.hasRole .input → t.moves.isSome) :
    Tracing net c P ⟨{ t with bases := t.basesWith d k }.learn d (t.flowFor d k), stack, opened⟩ := by
  refine ⟨h.search.finishes ha fun i => knows_learn, hcarry.learns t d k h.holds hk (fun i hi => ?_) hmoves⟩
  exact h.search.found_inputs ha (by rwa [inputsOf_of_get? hk])

/-- The only fault is that something upstream is missing. -/
theorem Tracing.turn (ha : net.Acyclic) (hcarry : Carries net c P post) {s : State}
    (h : Tracing net c P s) : (Checked.upTo fun _ => ¬ net.Rooted [c]).holds (Tracer.turn net c s)
      (Guarantee.Reaches (fun s' => Tracing net c P s' ∧
        ahead net s'.stack s'.opened < ahead net s.stack s.opened) post) := by
  obtain ⟨t, _ | ⟨⟨d, expanded⟩, stack⟩, opened⟩ := s
  · exact .inl ⟨_, rfl, hcarry.ends t h.holds fun d hd => h.search.ends hd⟩
  have hup : net.Upstream [c] d := h.search.upstream _ mem_cons_self
  have hget : (Checked.upTo fun _ => ¬ net.Rooted [c]).holds (net.get d) fun k =>
      net.get? d = some k := get_upTo fun hno hroot => hno (hroot d hup)
  unfold Tracer.turn
  dsimp only
  by_cases hknown : (t.known? d).isSome = true
  · rw [if_pos hknown]
    cases expanded with
    | true => exact absurd hknown (h.search.marked d mem_cons_self).2
    | false => exact .inl ⟨_, rfl, ⟨h.search.skips (.inl hknown), h.holds⟩, ahead_pop⟩
  rw [if_neg hknown]
  cases expanded with
  | true =>
    refine (Checked.upTo _).bind hget fun k hk => ?_
    rcases t.eval_cases d k with ⟨hinput, hmoves, heval⟩ | ⟨hmoves, heval⟩
    · rw [heval]
      exact .inl ⟨_, rfl, hcarry.stops t d k h.holds hup hk hinput hmoves⟩
    · rw [heval]
      exact .inl ⟨_, rfl, h.learns ha hcarry hk hmoves, ahead_pop⟩
  | false =>
    by_cases hopen : opened.contains d = true
    · rw [if_neg Bool.false_ne_true, if_pos hopen]
      exact .inl ⟨_, rfl, ⟨h.search.skips (.inr (contains_iff_mem.mp hopen)), h.holds⟩, ahead_pop⟩
    rw [if_neg Bool.false_ne_true, if_neg hopen]
    refine (Checked.upTo _).bind hget fun k hk => ?_
    have hnext := h.opens (fun hm => hopen (contains_iff_mem.mpr hm)) hknown hk
    exact .inl ⟨_, rfl, hnext, ahead_open hk hnext.search.once _⟩

theorem Carries.value (hcarry : Carries net c P post) (ha : net.Acyclic) (h : P t)
    (hclosed : ∀ d, t.Knows d → ∀ i ∈ net.inputsOf d, t.Knows i) :
    (Checked.upTo fun _ => ¬ net.Rooted [c]).holds (t.value net c) post :=
  (Checked.upTo _).run (Tracing net c P) (fun s => ahead net s.stack s.opened) post
    (fun _ hs => hs.turn ha hcarry) ⟨.start hclosed, h⟩
    (ahead_start net (show net.extent + [c].length ≤ _ from Nat.le_refl _))

end Turns

end Queries

end Tracer

/-! ## Values -/

/-- The value of a component without inputs. An AND of nothing is true and an OR of nothing false, and all
others have the value that they hold. -/
def Component.restingValue (k : Component) : Bool :=
  match k.op with
  | .and => true
  | .or => false
  | _ => k.value

namespace Network

/-- What the components without inputs read: the bases as given, the inputs by the moves, and all others
what they rest at. -/
def supposing (net : Network) (moves : List CompId) (bases : CompId → Bool) (c : CompId) : Bool :=
  (net.get? c).elim false fun k =>
    if k.hasRole .base then bases c
    else if k.hasRole .input then moves.contains c
    else k.restingValue

structure Traceable (net : Network) : Prop where
  acyclic : net.Acyclic
  narrow : net.Narrow
  bare : ∀ c k, net.get? c = some k → k.hasRole .base = true ∨ k.hasRole .input = true → k.inputs = []

section Values

variable {net : Network} {moves : List CompId} {bases bases' : CompId → Bool} {c : CompId}
  {k : Component}

theorem eval_supposing_of_bare (hk : net.get? c = some k) (hi : k.inputs = []) :
    net.eval (net.supposing moves bases) c = if k.hasRole .base then bases c
      else if k.hasRole .input then moves.contains c else k.restingValue := by
  rw [eval_of_source _ (by rw [inputsOf_of_get? hk, hi]), supposing, hk, Option.elim_some]

theorem eval_supposing_of_fed (ha : net.Acyclic) (hk : net.get? c = some k) (hi : k.inputs ≠ []) :
    net.eval (net.supposing moves bases) c = k.op.read k.inputs (net.eval (net.supposing moves bases)) := by
  have hin : net.inputsOf c ≠ [] := by rwa [inputsOf_of_get? hk]
  rw [ha.obeys_eval _ c k.op (op?_of_get? hk) hin, inputsOf_of_get? hk]

theorem eval_supposing_congr (ha : net.Acyclic) (hk : net.get? c = some k)
    (hbase : k.hasRole .base → bases c = bases' c)
    (hin : ∀ i ∈ k.inputs, net.eval (net.supposing moves bases) i = net.eval (net.supposing moves bases') i) :
    net.eval (net.supposing moves bases) c = net.eval (net.supposing moves bases') c := by
  by_cases hi : k.inputs = []
  · rw [eval_supposing_of_bare hk hi, eval_supposing_of_bare hk hi]
    by_cases hb : k.hasRole .base
    · rw [if_pos hb, if_pos hb, hbase hb]
    · rw [if_neg hb, if_neg hb]
  · rw [eval_supposing_of_fed ha hk hi, eval_supposing_of_fed ha hk hi, Op.read_of_forall_eq _ hin]

/-- If the flows of the inputs allow their values, so does the flow of the component. -/
theorem Traceable.covers_flowFor (h : net.Traceable) (hk : net.get? c = some k) {t : Tracer}
    (ht : t.moves = some moves)
    (hin : ∀ i ∈ k.inputs, (t.flowOf i).Covers (net.eval (net.supposing moves bases) i)) :
    (t.flowFor c k).Covers (net.eval (net.supposing moves bases) c) := by
  unfold Tracer.flowFor
  dsimp only
  by_cases hb : k.hasRole .base
  · rw [if_pos hb]
    trivial
  rw [if_neg hb]
  by_cases hinput : k.hasRole .input
  · rw [if_pos hinput, ht, eval_supposing_of_bare hk (h.bare c k hk (.inr hinput)), if_neg hb,
      if_pos hinput]
    exact Flow.covers_ofBool _
  rw [if_neg hinput]
  have hbare : k.inputs = [] → net.eval (net.supposing moves bases) c = k.restingValue := fun hi => by
    rw [eval_supposing_of_bare hk hi, if_neg hb, if_neg hinput]
  have hfed : ∀ i, k.inputs = [i] → net.eval (net.supposing moves bases) c =
      k.op.read [i] (net.eval (net.supposing moves bases)) := fun i hi => by
    rw [eval_supposing_of_fed h.acyclic hk (by simp [hi]), hi]
  -- ANDs and ORs read their inputs also where there are none
  have hgate : k.op = .and ∨ k.op = .or → net.eval (net.supposing moves bases) c =
      k.op.read k.inputs (net.eval (net.supposing moves bases)) := fun hop => by
    by_cases hi : k.inputs = []
    · rw [hbare hi, Component.restingValue, hi]
      rcases hop with hop | hop <;> rw [hop] <;> rfl
    · exact eval_supposing_of_fed h.acyclic hk hi
  have hone := (h.narrow c k hk).1
  cases hop : k.op with
  | and =>
    rw [hgate (.inl hop), hop]
    exact Flow.covers_all hin
  | or =>
    rw [hgate (.inr hop), hop]
    exact Flow.covers_any hin
  | not =>
    rcases hi : k.inputs with _ | ⟨i, _ | ⟨j, rest⟩⟩
    · rw [hbare hi, Component.restingValue, hop]
      exact Flow.covers_ofBool _
    · rw [hfed i hi, hop, Op.read_not_singleton]
      exact (hin i (by simp [hi])).not
    · simp [hi, hop] at hone
  | proposition | transition | constant =>
    rcases hi : k.inputs with _ | ⟨i, _ | ⟨j, rest⟩⟩
    · rw [hbare hi, Component.restingValue, hop]
      exact Flow.covers_ofBool _
    · rw [hfed i hi, hop, Op.read_singleton _ (by simp)]
      exact hin i (by simp [hi])
    · simp [hi, hop] at hone

end Values

end Network

/-! ## Tracers that know the moves -/

namespace Tracer

open Network

/-- The flow allows the value of the component whatever the bases are, and the value depends on the bases
in the list only. -/
structure Grasps (net : Network) (moves met : List CompId) (c : CompId) (f : Flow) : Prop where
  covers : ∀ bases, f.Covers (net.eval (net.supposing moves bases) c)
  depends : ∀ bases bases', (∀ b ∈ met, bases b = bases' b) →
    net.eval (net.supposing moves bases) c = net.eval (net.supposing moves bases') c

structure Right (net : Network) (moves : List CompId) (t : Tracer) : Prop where
  given : t.moves = some moves
  grasps : ∀ c f, t.known? c = some f → Grasps net moves t.bases c f
  inputs : ∀ c, t.Knows c → ∀ i ∈ net.inputsOf c, t.Knows i

section Right

variable {net : Network} {moves : List CompId} {t : Tracer} {c : CompId} {k : Component}

theorem right_given (net : Network) (moves : List CompId) : Right net moves (.given moves) where
  given := rfl
  grasps _ _ h := by cases h
  inputs _ h := by cases h

theorem Grasps.mono {met met' : List CompId} {f : Flow} (h : Grasps net moves met c f)
    (hsub : met ⊆ met') : Grasps net moves met' c f :=
  ⟨h.covers, fun bases bases' hb => h.depends bases bases' fun b hmem => hb b (hsub hmem)⟩

theorem subset_basesWith (t : Tracer) (c : CompId) (k : Component) : t.bases ⊆ t.basesWith c k := by
  unfold basesWith
  split
  · exact subset_cons_self _ _
  · exact List.Subset.refl _

theorem Right.learns (h : Right net moves t) (ht : net.Traceable) (hk : net.get? c = some k)
    (hin : ∀ i ∈ k.inputs, t.Knows i) :
    Right net moves ({ t with bases := t.basesWith c k }.learn c (t.flowFor c k)) := by
  have hknown : ∀ i ∈ k.inputs, Grasps net moves t.bases i (t.flowOf i) := fun i hi => by
    obtain ⟨f, hf⟩ := Option.isSome_iff_exists.mp (hin i hi)
    rw [flowOf, hf]
    exact h.grasps i f hf
  refine ⟨h.given, fun d f hd => ?_, fun d hd i hi => ?_⟩
  · rw [known?_learn] at hd
    split at hd
    · next heq =>
      subst heq
      cases hd
      refine ⟨fun bases => ht.covers_flowFor hk h.given fun i hi => (hknown i hi).covers bases,
        fun bases bases' hb => eval_supposing_congr ht.acyclic hk (fun hbase => hb d ?_) fun i hi =>
          (hknown i hi).depends bases bases' fun b hmem => hb b (subset_basesWith t d k hmem)⟩
      change d ∈ t.basesWith d k
      rw [basesWith, if_pos hbase]
      exact mem_cons_self
    · exact (h.grasps d f hd).mono (subset_basesWith t c k)
  · rw [knows_learn] at hd ⊢
    rcases hd with rfl | hd
    · exact .inr (hin i (by rwa [inputsOf_of_get? hk] at hi))
    · exact .inr (h.inputs d hd i hi)

theorem Right.carries (ht : net.Traceable) (c : CompId) : Carries net c (Right net moves) fun r =>
    Right net moves r.1 ∧ ∃ f, r.2 = .flow f ∧ Grasps net moves r.1.bases c f where
  learns t d k h hk hin _ := h.learns ht hk hin
  stops t d k h _ _ _ hmoves := by
    rw [h.given] at hmoves
    cases hmoves
  ends t h hall := by
    obtain ⟨f, hf⟩ := Option.isSome_iff_exists.mp (hall c (.root mem_cons_self))
    refine ⟨h, _, rfl, ?_⟩
    rw [flowOf, hf]
    exact h.grasps c f hf

theorem Right.value (h : Right net moves t) (ht : net.Traceable) (c : CompId) :
    (Checked.upTo fun _ => ¬ net.Rooted [c]).holds (t.value net c) fun r =>
      Right net moves r.1 ∧ ∃ f, r.2 = .flow f ∧ Grasps net moves r.1.bases c f :=
  (Right.carries ht c).value ht.acyclic h h.inputs

end Right

def asked (net : Network) (moves queries : List CompId) : Checked Tracer :=
  queries.foldlM (fun t c => do return (← t.value net c).1) (.given moves)

/-- Whatever a tracer has been asked before, it answers with a flow that allows the value of the component
for all bases, and the value depends on no other bases than those it has met. It does answer if nothing
is missing upstream. -/
theorem value_sound {net : Network} (h : net.Traceable) (moves queries : List CompId) {t : Tracer}
    (ht : asked net moves queries = .ok t) (c : CompId) :
    ((t.value net c).Ensures fun r => ∃ f, r.2 = .flow f ∧
      (f = .true → ∀ bases, net.eval (net.supposing moves bases) c = true) ∧
      (f = .false → ∀ bases, net.eval (net.supposing moves bases) c = false) ∧
      ∀ bases bases', (∀ b ∈ r.1.bases, bases b = bases' b) →
        net.eval (net.supposing moves bases) c = net.eval (net.supposing moves bases') c) ∧
    (net.Rooted [c] → ∃ r, t.value net c = .ok r) := by
  have hright : Right net moves t := by
    refine Checked.partly.foldlM (fun _ t => Right net moves t) (fun c _ t hr => ?_) queries _
      (right_given net moves) t ht
    exact .bind (.of_upTo (hr.value h c)) fun r hr => .pure hr.1
  have hvalue := hright.value h c
  refine ⟨Checked.Ensures.mono (.of_upTo hvalue) ?_, fun hroot => ?_⟩
  · rintro r ⟨-, f, hf, hg⟩
    refine ⟨f, hf, fun ht bases => ?_, fun hf bases => ?_, hg.depends⟩
    · subst ht
      exact hg.covers bases
    · subst hf
      exact hg.covers bases
  · obtain ⟨r, hr, -⟩ := Checked.Yields.of_upTo hvalue fun _ hno => hno hroot
    exact ⟨r, hr⟩

/-- Without a move the lamp's AND is false whatever the lamp is, and this is still known after the lamp's
transition has been asked for, which depends on the lamp. -/
theorem value_sound_lamp : lamp.Traceable ∧ ∃ t r r', asked lamp [] [1] = .ok t ∧
    t.value lamp 6 = .ok r ∧ r.2 = .flow .false ∧
    (∀ bases, lamp.eval (lamp.supposing [] bases) 6 = false) ∧
    t.value lamp 1 = .ok r' ∧ r'.2 = .flow .base ∧ r'.1.bases = [0] ∧
    ∀ bases bases', bases 0 = bases' 0 →
      lamp.eval (lamp.supposing [] bases) 1 = lamp.eval (lamp.supposing [] bases') 1 := by
  have htrace : lamp.Traceable := ⟨lamp_acyclic, by decide, forall_components.mpr (by decide)⟩
  have hok : (do
      let t ← asked lamp [] [1]
      let r ← t.value lamp 6
      let r' ← t.value lamp 1
      return (r.2, r'.2, r'.1.bases) : Checked (Traced × Traced × List CompId)) =
        .ok (.flow .false, .flow .base, [0]) := by decide +kernel
  obtain ⟨t, ht, hok⟩ := exists_of_bind_eq_ok hok
  obtain ⟨r, hr, hok⟩ := exists_of_bind_eq_ok hok
  obtain ⟨r', hr', hok⟩ := exists_of_bind_eq_ok hok
  obtain ⟨h6, h⟩ := Prod.mk.inj (Except.ok.inj hok)
  obtain ⟨h1, hmet⟩ := Prod.mk.inj h
  obtain ⟨f, hf, -, hfalse, -⟩ := (value_sound htrace [] [1] ht 6).1 r hr
  obtain ⟨f', -, -, -, hdepends⟩ := (value_sound htrace [] [1] ht 1).1 r' hr'
  refine ⟨htrace, t, r, r', ht, hr, h6, hfalse ?_, hr', h1, hmet, fun bases bases' hb =>
    hdepends bases bases' fun b hmem => ?_⟩
  · exact Traced.flow.inj (hf.symm.trans h6)
  · rw [hmet] at hmem
    rw [List.mem_singleton.mp hmem, hb]

end Tracer

end GameNet
