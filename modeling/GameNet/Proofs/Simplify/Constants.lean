import GameNet.Proofs.Eval.Position
import GameNet.Proofs.Simplify.Folding

/-!
Forcing a component to a value, and the legals that fall with it.

Every fold starts where the one before has ended, with one more component known to be stuck.
-/

namespace GameNet

open List

namespace Constants

open Network

def Known (net₀ : Network) (known : List (CompId × Bool)) (v : CompId → Bool) : Prop :=
  net₀.Obeys v ∧ ∀ x ∈ known, v x.1 = x.2

def Fallen (net₀ net : Network) (i : CompId) : Prop :=
  ∃ l k, net.get? l = some k ∧ k.hasRole .legal = true ∧
    k.proposition?.bind (·.pairedInput) = some i ∧ net₀.inputsOf l ≠ [] ∧ k.inputs = [] ∧ k.value = false

def Bits (net₀ net : Network) : Prop :=
  ∀ d k, net.get? d = some k → k.isGate = false → (k.op = .transition → net₀.inputsOf d ≠ []) →
    k.count = 0 ∨ k.count = 1

structure Stage (right : Prop) (net₀ : Network) (known : List (CompId × Bool)) (bound : Nat)
    (s : State) : Prop where
  folding : ∃ start val, (right → Known net₀ known val) ∧
    Folding right net₀ start (Known net₀ known) val (· ∈ known.map (·.1)) bound s
  idle : s.work = []
  sources : ∀ x ∈ known, net₀.inputsOf x.1 = []
  bits : right → Bits net₀ s.net
  same : ¬ right → ∀ d k, s.net.get? d = some k → ∃ k₀, net₀.get? d = some k₀ ∧ k.face = k₀.face ∧
    (k₀.inputs = [] → k.bare = k₀.bare)

def Frame (i : CompId) (net net' : Network) : Prop :=
  ∀ d k, net.get? d = some k → k.op = .proposition ∨ k.op = .transition → k.inputs = [] → d ≠ i →
    ∃ k', net'.get? d = some k' ∧ k'.inputs = [] ∧ k'.bare = k.bare

section Stage

variable {right : Prop} {net₀ : Network} {known : List (CompId × Bool)} {bound : Nat} {s : State}

theorem stage_start {net : Network} (hb : net.Balanced) (hs : right → net.Standard)
    (h : right → net.Settled) (hbits : right → Bits net net) :
    Stage right net [] (fed net net.front?) { net, work := [] } := by
  have hcore : Core right net net (Known net []) net.valueAt net.front? [] := by
    constructor
    case old =>
      intro d k hk
      obtain ⟨k₀, hk₀, rfl⟩ := exists_of_front? hk
      exact ⟨k₀, hk₀, rfl, List.Sublist.refl _⟩
    case kept => exact fun d k₀ hk₀ _ => ⟨k₀.front, front?_of_get? hk₀⟩
    case since =>
      intro d k hk
      obtain ⟨k₀, hk₀, rfl⟩ := exists_of_front? hk
      exact ⟨k₀, hk₀, List.Sublist.refl _, rfl, fun _ => rfl⟩
    case spent =>
      intro d k hk _ hnil
      exact .inr ((inputsOf_of_front? hk).trans hnil)
    case stuck => exact forall_mem_nil _
    case distinct => exact nodup_nil
    case obeys =>
      intro v hv d k hk hi
      obtain ⟨k₀, hk₀, rfl⟩ := exists_of_front? hk
      have hobey := hv.1 d k₀.op (op?_of_get? hk₀) (by rw [inputsOf_of_get? hk₀]; exact hi)
      rwa [inputsOf_of_get? hk₀] at hobey
    case lost =>
      intro d k hk hi hne
      rw [inputsOf_of_front? hk] at hne
      exact absurd hi hne
    case value =>
      intro hr d k hk
      obtain ⟨k₀, hk₀, rfl⟩ := exists_of_front? hk
      exact (valueAt_of_get? hk₀).symm
    case counted =>
      intro hr d k hk
      obtain ⟨k₀, hk₀, rfl⟩ := exists_of_front? hk
      obtain ⟨ht, hf, hsg⟩ := hs hr d k₀ hk₀
      exact .inr ⟨⟨ht, hf, hsg⟩, fun hor => h hr d k₀ hk₀ hor⟩
  have hfresh : ∀ {q}, ¬ Drained net net.front? q := by
    rintro q ⟨k, hk, -, hnil, hne⟩
    rw [inputsOf_of_front? hk] at hne
    exact hne hnil
  refine ⟨⟨net, net.valueAt, fun hr => ⟨(h hr).tallied.obeys (hs hr), forall_mem_nil _⟩,
    ⟨rfl, rfl, hcore, hb, forall_mem_nil _,
      fun q hq => (hq.elim (fun hq => absurd hq not_mem_nil) hfresh).elim,
      forall_mem_nil _, Nat.le_of_eq (Nat.zero_add _)⟩⟩, rfl,
    forall_mem_nil _, hbits, fun _ d k hk => ⟨k, hk, rfl, fun _ => rfl⟩⟩

theorem Folding.acyclic {start : Network} {S : (CompId → Bool) → Prop} {val : CompId → Bool}
    {hush : CompId → Prop} (h : Folding right net₀ start S val hush bound s) (ha : net₀.Acyclic) :
    s.net.Acyclic := by
  have hfeeds : ∀ a b, s.net.Feeds a b → net₀.Feeds a b := by
    intro a b hab
    obtain ⟨k, hk⟩ := contains_iff.mp (contains_of_mem_inputsOf hab)
    obtain ⟨k₀, hk₀, -, hsub⟩ := h.core.old b k.front (front?_of_get? hk)
    rw [Feeds, inputsOf_of_get? hk] at hab
    rw [Feeds, inputsOf_of_get? hk₀]
    exact hsub.subset hab
  exact fun c hc => ha c (Relation.TransGen.mono hfeeds _ _ hc)

theorem Folding.settled {start : Network} {S : (CompId → Bool) → Prop} {val : CompId → Bool}
    {hush : CompId → Prop} (h : Folding right net₀ start S val hush bound s) (hidle : s.work = [])
    (hr : right) : s.net.Standard ∧ s.net.Settled := by
  have hcounted : ∀ d k, s.net.get? d = some k → k.front.Counted val := by
    intro d k hk
    rcases h.core.counted hr d k.front (front?_of_get? hk) with ⟨-, hm⟩ | hc
    · rw [hidle] at hm
      exact absurd hm not_mem_nil
    · exact hc
  constructor
  · intro d k hk
    obtain ⟨⟨ht, hf, hs⟩, -⟩ := hcounted d k hk
    exact ⟨ht, hf, hs⟩
  intro d k hk hor
  have hcount : k.count = (k.inputs.countP val : Nat) := (hcounted d k hk).2 hor
  rw [hcount]
  congr 1
  refine countP_congr fun a ha => ?_
  obtain ⟨ka, hka⟩ := contains_iff.mp (h.balanced.contains_source (b := d)
    (by rw [inputsOf_of_get? hk]; exact ha))
  rw [valueAt_of_get? hka, ← h.core.value hr a ka.front (front?_of_get? hka)]
  rfl

section Advance

variable {start net : Network} {val : CompId → Bool} {i : CompId} {w : Bool}

def reset (net₀ : Network) (val : CompId → Bool) (i : CompId) (w : Bool) : CompId → Bool :=
  net₀.eval fun d => if d = i then w else val d

theorem known_reset (hb : net₀.Balanced) (ha : net₀.Acyclic) (hi : net₀.inputsOf i = [])
    (hsrc : ∀ x ∈ known, net₀.inputsOf x.1 = []) (hcons : ∀ x ∈ known, x.1 = i → x.2 = w)
    (hval : Known net₀ known val) : Known net₀ ((i, w) :: known) (reset net₀ val i w) := by
  refine ⟨obeys_eval hb ha _, fun x hx => ?_⟩
  rcases mem_cons.mp hx with rfl | hx
  · rw [reset, eval_of_source _ hi, if_pos rfl]
  rw [reset, eval_of_source _ (hsrc x hx)]
  split
  · next hxi => exact (hcons x hx hxi).symm
  · exact hval.2 x hx

theorem Known.tail {x : CompId × Bool} {v : CompId → Bool} (h : Known net₀ (x :: known) v) :
    Known net₀ known v := ⟨h.1, fun y hy => h.2 y (mem_cons_of_mem _ hy)⟩

theorem Folding.valueAt_reset (ha : net₀.Acyclic) {hush : CompId → Prop}
    (h : Folding right net₀ start (Known net₀ known) val hush bound s)
    (hr : right) (hval : Known net₀ known val) (hi : net₀.inputsOf i = [])
    (hreset : Known net₀ known (reset net₀ val i w)) (hrec : Recounts s.net net)
    (hstd : net.Standard) (hset : net.Settled) (hw : net.contains i → net.valueAt i = w)
    (hcount : ∀ d, s.net.inputsOf d = [] → d ≠ i → net.countAt d = s.net.countAt d) {d : CompId}
    (hd : net.contains d) : net.valueAt d = reset net₀ val i w d := by
  have hobey : net.Obeys (reset net₀ val i w) := by
    intro c op hop hne
    rw [hrec.op?] at hop
    rw [hrec.inputsOf] at hne ⊢
    obtain ⟨k, hk, rfl⟩ := Option.map_eq_some_iff.mp hop
    have hread := h.core.obeys _ hreset c k.front (front?_of_get? hk)
      (by rw [inputsOf_of_get? hk] at hne; exact hne)
    rwa [inputsOf_of_get? hk]
  refine (hset.tallied.obeys hstd).unique hobey (hrec.balanced h.balanced) (hrec.acyclic (h.acyclic ha))
    (fun c hc hnil => ?_) d hd
  -- without inputs: `i`, another source, or one that has lost its inputs
  by_cases hci : c = i
  · rw [hci] at hc ⊢
    rw [hw hc, reset, eval_of_source _ hi, if_pos rfl]
  rw [hrec.inputsOf] at hnil
  rw [hrec.contains] at hc
  obtain ⟨k, hk⟩ := contains_iff.mp hc
  have hstored : net.valueAt c = val c := by
    rw [hrec.valueAt_eq (hcount c hnil hci), valueAt_of_get? hk]
    exact h.core.value hr c k.front (front?_of_get? hk)
  rw [hstored]
  by_cases hsrc : net₀.inputsOf c = []
  · rw [reset, eval_of_source _ hsrc, if_neg hci]
  obtain ⟨u, hu⟩ := h.core.lost c k.front (front?_of_get? hk)
    (by rw [inputsOf_of_get? hk] at hnil; exact hnil) hsrc
  rw [hu val hval, hu _ hreset]

/-- What giving `i` its value in the network of a stage comes to. If the counts need not be right,
nothing changes. -/
structure Gives (right : Prop) (i : CompId) (w : Bool) (net net' : Network) : Prop where
  recounts : Recounts net net'
  counted : right → net'.Standard ∧ net'.Settled
  value : right → net'.contains i = true → net'.valueAt i = w
  bit : right → ∀ k, net'.get? i = some k → k.isGate = false → k.count = 0 ∨ k.count = 1
  count : ∀ d, net.inputsOf d = [] → d ≠ i → net'.countAt d = net.countAt d
  same : ¬ right → net' = net

section

variable (h : Stage right net₀ known bound s) {k : Component}
include h

theorem Stage.propagate (ha : net₀.Acyclic) (hk : s.net.get? i = some k) (hnil : k.inputs = [])
    (hg : k.isGate = false) (hop : k.op ≠ .transition) (hcount : right ∨ k.count = countOf w) :
    (s.net.propagate i w).Yields fun r => Gives right i w s.net r.1 := by
  obtain ⟨start, val, -, hf⟩ := h.folding
  by_cases hr : right
  · have hbit := h.bits hr i k hk hg fun ht => absurd ht hop
    obtain ⟨hstd, hset⟩ := hf.settled h.idle hr
    refine (propagate_settled hf.balanced (hf.acyclic ha) hstd hset ⟨k, hk, hnil, hg, hbit⟩).mono
      fun r hr' => ?_
    obtain ⟨hrec, hsettled, hcount⟩ := hr'
    obtain ⟨n, hn⟩ := hrec.get? hk
    have hi := hcount i (by rw [inputsOf_of_get? hk, hnil])
    rw [if_pos rfl] at hi
    have hstd' := hrec.standard hstd
    refine ⟨hrec, fun _ => ⟨hstd', hsettled⟩, fun _ _ => ?_, fun _ k' hk' _ => ?_, fun d hd hdi => ?_,
      fun hn => absurd hr hn⟩
    · have hgn : (k.counting n).isGate = false := hg
      rw [valueAt_of_get? hn, (hstd' i _ hn).value_of_plain hgn, ← countAt_of_get? hn, hi]
      cases w <;> rfl
    · rw [← countAt_of_get? hk', hi]
      exact countOf_cases w
    · rw [hcount d hd, if_neg hdi]
  · have hc : k.count = countOf w := hcount.resolve_left hr
    unfold Network.propagate
    refine .bind_ok (get_of_get? hk) ?_
    rw [if_pos hc]
    exact .pure ⟨.refl _, fun hr' => absurd hr' hr, fun hr' => absurd hr' hr,
      fun hr' => absurd hr' hr, fun _ _ _ => rfl, fun _ => rfl⟩

theorem Stage.core_restart {start : Network} {val v' : CompId → Bool} {hush : CompId → Prop}
    {bound' : Nat} (hf : Folding right net₀ start (Known net₀ known) val hush bound' s)
    (hk : s.net.get? i = some k) (hnil : k.inputs = []) (hset : Gives right i w s.net net)
    (hvalue : right → ∀ d, net.contains d → net.valueAt d = v' d) :
    Core right net₀ net (Known net₀ ((i, w) :: known)) v' net.front? [(i, w)] := by
  have hrec := hset.recounts
  -- only counts differ from the stage before, which has left no work
  constructor
  case old =>
    intro d kd hd
    obtain ⟨n, hn⟩ := hrec.front? hd
    have hold := hf.core.old d _ hn
    exact hold
  case kept =>
    intro d k₀ hk₀ hop
    obtain ⟨kd, hd⟩ := hf.core.kept d k₀ hk₀ hop
    obtain ⟨n, hn⟩ := hrec.symm.front? hd
    exact ⟨_, hn⟩
  case since =>
    intro d kd hd
    obtain ⟨k₁, hk₁, rfl⟩ := exists_of_front? hd
    exact ⟨k₁, hk₁, List.Sublist.refl _, rfl, fun _ => rfl⟩
  case spent =>
    intro d kd hd hg hnil
    obtain ⟨n, hn⟩ := hrec.front? hd
    rcases hf.core.spent d _ hn hg hnil with hm | hsrc
    · rw [h.idle] at hm
      exact absurd hm not_mem_nil
    · exact .inr hsrc
  case stuck =>
    intro x hx
    rw [mem_singleton.mp hx]
    obtain ⟨n, hn⟩ := hrec.symm.front? (front?_of_get? hk)
    exact ⟨_, hn, hnil, fun v hv => hv.2 (i, w) mem_cons_self⟩
  case distinct => exact nodup_singleton i
  case obeys =>
    intro v hv d kd hd hne
    obtain ⟨n, hn⟩ := hrec.front? hd
    have hread := hf.core.obeys v hv.tail d _ hn hne
    exact hread
  case lost =>
    intro d kd hd hnil hne
    obtain ⟨n, hn⟩ := hrec.front? hd
    obtain ⟨u, hu⟩ := hf.core.lost d _ hn hnil hne
    exact ⟨u, fun v hv => hu v hv.tail⟩
  case value =>
    intro hr d kd hd
    obtain ⟨k₁, hk₁, rfl⟩ := exists_of_front? hd
    rw [← hvalue hr d (contains_of_get? hk₁), valueAt_of_get? hk₁]
    rfl
  case counted =>
    intro hr d kd hd
    obtain ⟨k₁, hk₁, rfl⟩ := exists_of_front? hd
    obtain ⟨hstd, hsettled⟩ := hset.counted hr
    obtain ⟨ht, hfl, hsg⟩ := hstd d k₁ hk₁
    refine .inr ⟨⟨ht, hfl, hsg⟩, fun hor => ?_⟩
    have hcount : k₁.count = (k₁.inputs.countP net.valueAt : Nat) := hsettled d k₁ hk₁ hor
    change k₁.count = (k₁.inputs.countP v' : Nat)
    rw [hcount]
    congr 1
    refine countP_congr fun a ha' => ?_
    rw [hvalue hr a ((hrec.balanced hf.balanced).contains_source (b := d)
      (by rw [inputsOf_of_get? hk₁]; exact ha'))]

theorem Stage.restart (hb : net₀.Balanced)
    (ha : net₀.Acyclic) (hk : s.net.get? i = some k) (hi : net₀.inputsOf i = [])
    (hcons : ∀ x ∈ known, x.1 = i → x.2 = w) (hset : Gives right i w s.net net) :
    ∃ val, (right → Known net₀ ((i, w) :: known) val) ∧
      Folding right net₀ net (Known net₀ ((i, w) :: known)) val (· ∈ ((i, w) :: known).map (·.1))
        (s.legals.length + fed net₀ s.net.front?) { s with net, work := [(i, w)] } := by
  obtain ⟨start, val, hval, hf⟩ := h.folding
  have hrec := hset.recounts
  have hnil : k.inputs = [] := by
    obtain ⟨k₀, hk₀, -, hsub⟩ := hf.core.old i k.front (front?_of_get? hk)
    rw [inputsOf_of_get? hk₀] at hi
    rw [hi] at hsub
    exact sublist_nil.mp hsub
  have hreset : right → Known net₀ ((i, w) :: known) (reset net₀ val i w) := fun hr =>
    known_reset hb ha hi h.sources hcons (hval hr)
  have hvalue : right → ∀ d, net.contains d → net.valueAt d = reset net₀ val i w d := by
    intro hr d hd
    obtain ⟨hstd, hsettled⟩ := hset.counted hr
    exact hf.valueAt_reset ha hr (hval hr) hi (hreset hr).tail hrec hstd hsettled (hset.value hr)
      hset.count hd
  have hfed : fed net₀ net.front? = fed net₀ s.net.front? := by
    refine tally_congr fun d _ => ?_
    rw [front?, front?, Option.elim_map, Option.elim_map]
    exact hrec.elim_eq 0 _ d
  refine ⟨reset net₀ val i w, hreset, hrec.parts.trans hf.parts, hrec.capacity.trans hf.capacity,
    h.core_restart hf hk hnil hset hvalue, hrec.balanced hf.balanced, fun l hl => ?_, fun q hq => ?_,
    fun q hq => ?_, ?_⟩
  · obtain ⟨kl, hkl, hnl, hrole, hne⟩ := hf.legal l hl
    obtain ⟨n, hn⟩ := hrec.symm.front? hkl
    exact ⟨_, hn, hnl, hrole, hne⟩
  · have hquiet : q ∈ known.map (·.1) ∨ Drained net₀ s.net.front? q → ∀ b, net.edgesOut q b = 0 := by
      intro hq b
      rcases hf.quiet q hq with hm | h0
      · rw [h.idle] at hm
        exact absurd hm not_mem_nil
      · rw [edgesOut, hrec.outputsOf]
        exact h0 b
    rcases hq with hq | ⟨kq, hkq, hrest⟩
    · rcases mem_cons.mp hq with rfl | hq
      · exact .inl mem_cons_self
      · exact .inr (hquiet (.inl hq))
    · obtain ⟨n, hn⟩ := hrec.front? hkq
      exact .inr (hquiet (.inr ⟨_, hn, hrest⟩))
  · rcases mem_cons.mp hq with rfl | hq
    · exact .inl mem_cons_self
    · rcases hf.gone q hq with hm | hnone | hlast
      · rw [h.idle] at hm
        exact absurd hm not_mem_nil
      · refine .inr (.inl ?_)
        rw [front?, Option.map_eq_none_iff] at hnone ⊢
        exact hrec.get?_none hnone
      · exact .inr (.inr hlast)
  · dsimp only
    rw [hfed]

theorem Stage.bits_set {d : CompId}
    (hr : right) (hn : net₀.Narrow) (hset : Gives right i w s.net net) (hk : net.get? d = some k)
    (hg : k.isGate = false) (hop : k.op = .transition → net₀.inputsOf d ≠ []) :
    k.count = 0 ∨ k.count = 1 := by
  obtain ⟨start, val, -, hf⟩ := h.folding
  obtain ⟨n, hn'⟩ := hset.recounts.symm.get? hk
  by_cases hi : k.inputs = []
  · by_cases hdi : d = i
    · rw [hdi] at hk
      exact hset.bit hr k hk hg
    · have hcount := hset.count d (by rw [inputsOf_of_get? hn']; exact hi) hdi
      rw [countAt_of_get? hk, countAt_of_get? hn'] at hcount
      rw [hcount]
      exact h.bits hr d _ hn' hg hop
  refine (hset.counted hr).2.count_bit (fun e ke hke => ?_) hk hg hi
  obtain ⟨n, hn'⟩ := hset.recounts.symm.get? hke
  obtain ⟨k₀, hk₀, hkind, hsub⟩ := hf.core.old e _ (front?_of_get? hn')
  have hop₀ : ke.op = k₀.op := congrArg Kind.op hkind
  have hsub' : ke.inputs.Sublist k₀.inputs := hsub
  obtain ⟨hlen, hconst⟩ := hn e k₀ hk₀
  rw [← hop₀] at hlen hconst
  refine ⟨fun hand hor => Nat.le_trans hsub'.length_le (hlen hand hor), fun hc => ?_⟩
  rw [hconst hc] at hsub'
  exact sublist_nil.mp hsub'

theorem Stage.fold (hn : net₀.Narrow) (hb : net₀.Balanced) (ha : net₀.Acyclic)
    (hk : s.net.get? i = some k) (hi : net₀.inputsOf i = []) (hcons : ∀ x ∈ known, x.1 = i → x.2 = w)
    (hset : Gives right i w s.net net) : (Constants.fold { s with net } i w).Yields fun s' =>
      Stage right net₀ ((i, w) :: known) (s.legals.length + fed net₀ s.net.front?) s' ∧
        Frame i s.net s'.net := by
  obtain ⟨start, val, -, hf⟩ := h.folding
  obtain ⟨val', hval', hfold⟩ := h.restart hb ha hk hi hcons hset
  refine (fold_yields hn hval' hfold).mono fun s' hs' => ?_
  obtain ⟨hf', hidle⟩ := hs'
  refine ⟨⟨⟨net, val', hval', hf'⟩, hidle, fun x hx => ?_, fun hr d kd hd hgd hopd => ?_,
    fun hr d kd hd => ?_⟩, fun d kd hd hopd hnild hdi => ?_⟩
  · rcases mem_cons.mp hx with rfl | hx
    · exact hi
    · exact h.sources x hx
  · obtain ⟨k₁, hk₁, -, hface, -⟩ := hf'.core.since d kd.front (front?_of_get? hd)
    have hbare' : kd.bare = k₁.bare := Component.bare_of_face hface hgd
    have hkind : k₁.kind = kd.kind := (congrArg Component.kind hbare').symm
    have hc : kd.bare.count = k₁.bare.count := congrArg Component.count hbare'
    rw [show kd.count = k₁.count from hc]
    refine h.bits_set hr hn hset hk₁ ?_ fun ht => hopd ?_
    · rw [Component.isGate, Component.op, hkind]
      exact hgd
    · rw [Component.op, ← hkind]
      exact ht
  · obtain ⟨k₁, hk₁, -, hface, hbare⟩ := hf'.core.since d kd.front (front?_of_get? hd)
    rw [hset.same hr] at hk₁
    obtain ⟨k₀, hk₀, hface₀, hbare₀⟩ := h.same hr d k₁ hk₁
    refine ⟨k₀, hk₀, hface.trans hface₀, fun hnil => ?_⟩
    obtain ⟨k₂, hk₂, -, hsub⟩ := hf.core.old d k₁.front (front?_of_get? hk₁)
    rw [hk₀] at hk₂
    cases hk₂
    rw [hnil] at hsub
    exact (hbare (sublist_nil.mp hsub)).trans (hbare₀ hnil)
  · -- in the network with `i` set the component has not changed, and folding leaves it alone
    have hd₁ : net.get? d = some kd := by
      obtain ⟨n, hn⟩ := hset.recounts.get? hd
      have hc := hset.count d (by rw [inputsOf_of_get? hd, hnild]) hdi
      rw [countAt_of_get? hn, countAt_of_get? hd] at hc
      have hn' : n = kd.count := hc
      rw [hn, hn']
      rfl
    obtain ⟨k₀, hk₀, hkind₀, -⟩ := hf.core.old d kd.front (front?_of_get? hd)
    have hop₀ : kd.op = k₀.op := congrArg Kind.op hkind₀
    obtain ⟨kf, hkf⟩ := hf'.core.kept d k₀ hk₀ (hop₀ ▸ hopd)
    obtain ⟨k', hk', rfl⟩ := exists_of_front? hkf
    obtain ⟨k₁, hk₁, hsub, -, hbare⟩ := hf'.core.since d k'.front hkf
    rw [hd₁] at hk₁
    cases hk₁
    refine ⟨k', hk', ?_, hbare hnild⟩
    rw [hnild] at hsub
    exact sublist_nil.mp hsub

end

end Advance

end Stage

/-! ## Legals that fall -/

/-- What folding asks of a network. If the counts are not `right`, inputs at least are false. -/
structure Trimmable (right : Prop) (net : Network) : Prop where
  balanced : net.Balanced
  acyclic : net.Acyclic
  narrow : net.Narrow
  bits : right → Bits net net
  counted : right → net.Standard ∧ net.Settled
  input : ∀ i k, net.get? i = some k → k.hasRole .input = true → k.inputs = []
  paired : ∀ l i k, net.pairedInput? l = some i → net.get? i = some k → k.hasRole .input = true
  zero : right ∨ ∀ i k, net.get? i = some k → k.hasRole .input = true → k.count = 0

structure Foldable (right : Prop) (net : Network) : Prop where
  balanced : net.Balanced
  acyclic : net.Acyclic
  narrow : net.Narrow
  bits : Bits net net
  counted : right → net.Standard ∧ net.Settled
  input : ∀ i k, net.get? i = some k → k.hasRole .input = true → k.inputs = []
  paired : ∀ l i k, net.pairedInput? l = some i → net.get? i = some k → k.hasRole .input = true
  zero : right ∨ ∀ i k, net.get? i = some k → k.hasRole .input = true → k.count = 0

theorem Foldable.trimmable {right : Prop} {net : Network} (h : Foldable right net) :
    Trimmable right net := { h with bits := fun _ => h.bits }

instance {right : Prop} {net : Network} : Coe (Foldable right net) (Trimmable right net) :=
  ⟨Foldable.trimmable⟩

/-- While legals are dealt with: whatever is known to be stuck, apart from the first component, is an
input whose legal has fallen. -/
structure Purging (right : Prop) (net₀ : Network) (first : CompId × Bool)
    (known : List (CompId × Bool)) (bound : Nat) (s : State) : Prop where
  stage : Stage right net₀ known bound s
  mem : first ∈ known
  fallen : ∀ x ∈ known, x = first ∨ x.2 = false ∧ Fallen net₀ s.net x.1

section Purge

variable {right : Prop} {net₀ : Network} {first : CompId × Bool} {known : List (CompId × Bool)}
  {bound : Nat} {s : State} {l : CompId} {legals : List CompId} {k : Component}

theorem Purging.popLegal (h : Purging right net₀ first known bound s)
    (hl : s.legals = l :: legals) : Purging right net₀ first known bound { s with legals } := by
  obtain ⟨start, val, hval, hf⟩ := h.stage.folding
  have hle := hf.legals_le
  rw [hl, length_cons] at hle
  refine ⟨⟨⟨start, val, hval, { hf with
    legal := fun l' hl' => hf.legal l' (by rw [hl]; exact mem_cons_of_mem _ hl')
    legals_le := by dsimp only; omega }⟩, h.stage.idle, h.stage.sources, h.stage.bits, h.stage.same⟩,
    h.mem, h.fallen⟩

theorem Fallen.frame {net net' : Network} {i j : CompId} (h : Fallen net₀ net j)
    (hframe : Frame i net net') (hk : net.get? i = some k) (hr : k.hasRole .legal ≠ true) :
    Fallen net₀ net' j := by
  obtain ⟨l, kl, hkl, hrole, hpair, hne, hnil, hval⟩ := h
  have hli : l ≠ i := by
    rintro rfl
    rw [hk] at hkl
    cases hkl
    exact hr hrole
  obtain ⟨k', hk', hnil', hbare⟩ := hframe l kl hkl (.inl (Component.op_of_hasRole hrole)) hnil hli
  have hkind : k'.bare.kind = kl.bare.kind := congrArg Component.kind hbare
  have hprop : k'.proposition? = kl.proposition? := by
    rw [Component.proposition?, show k'.kind = kl.kind from hkind]
    rfl
  have hvalue : k'.bare.value = kl.bare.value := congrArg Component.value hbare
  refine ⟨l, k', hk', ?_, ?_, hne, hnil', ?_⟩
  · rw [Component.hasRole, Component.role?, hprop]
    exact hrole
  · rw [hprop]
    exact hpair
  · change k'.bare.value = false
    rw [hvalue]
    exact hval

/-- A legal that is stuck at false takes its input with it. -/
theorem Purging.fall {i : CompId} {k ki : Component} (h : Purging right net₀ first known bound s)
    (hn : Trimmable right net₀)
    (hfirst : ∀ k, net₀.get? first.1 = some k → k.hasRole .input → first.2 = false)
    (hl : s.legals = l :: legals) (hk : s.net.get? l = some k) (hv : k.value = false)
    (hpair : k.proposition?.bind (·.pairedInput) = some i) (hki : s.net.get? i = some ki)
    (hnili : ki.inputs = []) :
    (s.net.propagate i false).Yields fun r => (fold { s with legals, net := r.1 } i false).Yields fun s' =>
      Purging right net₀ first ((i, false) :: known) (legals.length + fed net₀ s.net.front?) s' := by
  obtain ⟨start, val, -, hf⟩ := h.stage.folding
  obtain ⟨kf, hkf, hnil, hrole, hne⟩ := hf.legal l (by rw [hl]; exact mem_cons_self)
  rw [front?_of_get? hk] at hkf
  cases hkf
  obtain ⟨k₀, hk₀, hkind₀, -⟩ := hf.core.old l k.front (front?_of_get? hk)
  obtain ⟨ki₀, hki₀, hkindi, -⟩ := hf.core.old i ki.front (front?_of_get? hki)
  have hprop : k₀.proposition? = k.proposition? := by
    rw [Component.proposition?, ← hkind₀]
    rfl
  have hinput₀ : ki₀.hasRole .input := by
    refine hn.paired l i ki₀ ?_ hki₀
    rw [pairedInput?_of_get? hk₀, hprop]
    exact hpair
  have hpropi : ki.proposition? = ki₀.proposition? := by
    rw [Component.proposition?, Component.proposition?, ← hkindi]
    rfl
  have hinput : ki.hasRole .input := by
    rw [Component.hasRole, Component.role?, hpropi]
    exact hinput₀
  have hsrc : net₀.inputsOf i = [] := by
    rw [inputsOf_of_get? hki₀]
    exact hn.input i ki₀ hki₀ hinput₀
  have hcons : ∀ x ∈ known, x.1 = i → x.2 = false := by
    intro x hx hxi
    rcases h.fallen x hx with rfl | ⟨h2, -⟩
    · exact hfirst ki₀ (by rw [hxi]; exact hki₀) hinput₀
    · exact h2
  have hcount : right ∨ ki.count = countOf false := by
    by_cases hr : right
    · exact .inl hr
    refine .inr ?_
    obtain ⟨k₁, hk₁, hface, -⟩ := h.stage.same hr i ki hki
    rw [hki₀] at hk₁
    cases hk₁
    have hbare := Component.bare_of_face hface (Component.isGate_of_hasRole hinput)
    have hc : ki.bare.count = ki₀.bare.count := congrArg Component.count hbare
    exact hc.trans (hn.zero.resolve_left hr i ki₀ hki₀ hinput₀)
  have hlegal : ki.hasRole .legal ≠ true := by
    intro hlegal
    simp only [Component.hasRole, beq_iff_eq] at hinput hlegal
    rw [hinput] at hlegal
    cases hlegal
  have hstage := (h.popLegal hl).stage
  refine (hstage.propagate hn.acyclic hki hnili (Component.isGate_of_hasRole hinput)
    (by rw [Component.op_of_hasRole hinput]; decide) hcount).mono fun r hset => ?_
  refine (hstage.fold hn.narrow hn.balanced hn.acyclic hki hsrc hcons hset).mono fun s' hs' => ?_
  obtain ⟨hstage, hframe⟩ := hs'
  refine ⟨hstage, mem_cons_of_mem _ h.mem, fun x hx => ?_⟩
  rcases mem_cons.mp hx with rfl | hx
  · have hfallen : Fallen net₀ s.net i := ⟨l, k, hk, hrole, hpair, hne, hnil, hv⟩
    exact .inr ⟨rfl, hfallen.frame hframe hki hlegal⟩
  · exact (h.fallen x hx).imp_right fun hf => ⟨hf.1, hf.2.frame hframe hki hlegal⟩

def Purged (right : Prop) (net₀ : Network) (first : CompId × Bool) (s : State) : Prop :=
  ∃ known bound, Purging right net₀ first known bound s

def toFall (net₀ : Network) (s : State) : Nat := s.legals.length + fed net₀ s.net.front?

theorem Purged.legalTurn (h : Purged right net₀ first s) (hn : Trimmable right net₀)
    (hfirst : ∀ k, net₀.get? first.1 = some k → k.hasRole .input → first.2 = false) :
    (Constants.legalTurn s).Yields (Guarantee.Reaches
      (fun s' => Purged right net₀ first s' ∧ toFall net₀ s' < toFall net₀ s) (Purged right net₀ first)) := by
  obtain ⟨known, bound, h⟩ := h
  unfold Constants.legalTurn
  rcases hl : s.legals with _ | ⟨l, legals⟩
  · exact .pure ⟨known, bound, h⟩
  have hnext : Purged right net₀ first { s with legals } ∧
      toFall net₀ { s with legals } < toFall net₀ s := by
    refine ⟨⟨known, bound, h.popLegal hl⟩, ?_⟩
    rw [toFall, toFall, hl, length_cons]
    dsimp only
    omega
  obtain ⟨start, val, -, hf⟩ := h.stage.folding
  obtain ⟨kf, hkf, -⟩ := hf.legal l (by rw [hl]; exact mem_cons_self)
  obtain ⟨k, hk, -⟩ := exists_of_front? hkf
  refine .bind (.lift ⟨k, get_of_get? hk, rfl⟩) fun k' hk' => ?_
  cases hk'
  by_cases hv : k.value = true
  · rw [if_pos hv]
    exact .bind (.tell (P := fun _ => True) trivial) fun _ _ => .pure hnext
  rw [if_neg hv]
  rcases hfree : freeInput? s.net k with _ | i
  · exact .pure hnext
  obtain ⟨hpair, hany⟩ := Option.filter_eq_some_iff.mp hfree
  rcases hki : s.net.get? i with _ | ki
  · rw [hki] at hany
    cases hany
  rw [hki] at hany
  refine .bind (.lift (h.fall hn hfirst hl hk (Bool.eq_false_iff.mpr hv) hpair hki
    (List.isEmpty_iff.mp hany))) fun r hr => ?_
  refine .bind (.lift hr) fun s' hs' => .pure ⟨⟨_, _, hs'⟩, ?_⟩
  obtain ⟨start', val', -, hf'⟩ := hs'.stage.folding
  have hle : toFall net₀ s' ≤ legals.length + fed net₀ s.net.front? := hf'.legals_le
  have hs : toFall net₀ s = legals.length + 1 + fed net₀ s.net.front? := by
    rw [toFall, hl, length_cons]
  omega

/-- Folding a component without inputs, once it has its value, and all legals that fall with it. -/
theorem fold_purged {net net' : Network} {c : CompId} {v : Bool}
    (hn : Trimmable right net) (hk : net.get? c = some k) (hnil : k.inputs = [])
    (hfirst : k.hasRole .input → v = false) (hset : Gives right c v net net') :
    (do
      let s ← Constants.fold { net := net', work := [] } c v
      Loop.run (net'.extent + 1) Constants.legalTurn s : Observed State).Yields
      (Purged right net (c, v)) := by
  have hstart := stage_start hn.balanced (fun hr => (hn.counted hr).1) (fun hr => (hn.counted hr).2) hn.bits
  refine .bind (.lift (hstart.fold hn.narrow hn.balanced hn.acyclic hk
    (by rw [inputsOf_of_get? hk, hnil]) (forall_mem_nil _) hset)) fun s hs => ?_
  obtain ⟨hs, -⟩ := hs
  have hpurge : Purging right net (c, v) [(c, v)] _ s :=
    ⟨hs, mem_cons_self, fun x hx => .inl (mem_singleton.mp hx)⟩
  refine Observed.total.run (Purged right net (c, v)) (toFall net) _ (fun s hs => ?_) ⟨_, _, hpurge⟩ ?_
  · refine hs.legalTurn hn fun k' hk' => ?_
    rw [hk] at hk'
    cases hk'
    exact hfirst
  obtain ⟨start, val, -, hf⟩ := hs.folding
  refine Nat.lt_of_lt_of_le ?_ (Loop.allowance_mono (Nat.le_add_right _ _))
  refine Nat.lt_of_le_of_lt ?_ (Loop.lt_allowance _)
  have hle : toFall net s ≤ 0 + fed net net.front? := hf.legals_le
  have hfed := fed_le_capacity net net.front?
  have hcap : net'.capacity = net.capacity := hset.recounts.capacity
  have hext := net'.capacity_le_extent
  omega

theorem foldConstant_purged {net : Network} {c : CompId} {v : Bool} (hn : Trimmable right net)
    (hk : net.get? c = some k) (hnil : k.inputs = []) (hg : k.isGate = false) (hop : k.op ≠ .transition)
    (hcount : right ∨ k.count = countOf v) (hfirst : k.hasRole .input → v = false) :
    (net.foldConstant c v).Yields fun r => ∃ s, Purged right net (c, v) s ∧ s.net = r.1 := by
  have hstart := stage_start hn.balanced (fun hr => (hn.counted hr).1) (fun hr => (hn.counted hr).2) hn.bits
  unfold foldConstant
  refine .bind (.lift ⟨k, get_of_get? hk, rfl⟩) fun k' hk' => ?_
  cases hk'
  simp only [hnil, hg, isEmpty_nil, Bool.not_true, Bool.false_eq_true, if_false]
  refine .bind (.lift (hstart.propagate hn.acyclic hk hnil hg hop hcount)) fun r hset => ?_
  refine .bind (.pure (P := (· = r.1)) rfl) fun net' hnet' => ?_
  cases hnet'
  rw [← bind_assoc]
  exact .bind (fold_purged hn hk hnil hfirst hset) fun s hs => .pure ⟨s, hs, rfl⟩

/-- With the first component at its value and the fallen inputs at false, all is as it is known. -/
theorem Purging.known_eval {σ : CompId → Bool} (h : Purging right net₀ first known bound s)
    (hb : net₀.Balanced) (ha : net₀.Acyclic) (hσ : σ first.1 = first.2)
    (hfallen : ∀ i, Fallen net₀ s.net i → σ i = false) : Known net₀ known (net₀.eval σ) := by
  refine ⟨obeys_eval hb ha σ, fun x hx => ?_⟩
  rw [eval_of_source σ (h.stage.sources x hx)]
  rcases h.fallen x hx with rfl | ⟨h2, hfall⟩
  · exact hσ
  · rw [h2, hfallen x.1 hfall]

theorem Stage.stored {d : CompId} {v : CompId → Bool} (h : Stage right net₀ known bound s) (hr : right)
    (hv : Known net₀ known v) (hk : s.net.get? d = some k) (hnil : k.inputs = [])
    (hne : net₀.inputsOf d ≠ []) : k.value = v d := by
  obtain ⟨start, val, hval, hf⟩ := h.folding
  obtain ⟨u, hu⟩ := hf.core.lost d k.front (front?_of_get? hk) hnil hne
  have hstored : k.front.value = val d := hf.core.value hr d k.front (front?_of_get? hk)
  exact hstored.trans ((hu val (hval hr)).trans (hu v hv).symm)

end Purge

end Constants

namespace Network

open Constants

structure Folded (net : Network) (c : CompId) (v : Bool) (net' : Network) : Prop where
  balanced : net'.Balanced
  settled : net'.Settled
  standard : net'.Standard
  quiet : ∀ b, c ∉ net'.inputsOf b ∧ b ∉ net'.outputsOf c
  old : ∀ d k', net'.get? d = some k' →
    ∃ k, net.get? d = some k ∧ k'.kind = k.kind ∧ k'.inputs.Sublist k.inputs
  kept : ∀ d k, net.get? d = some k → k.op = .proposition ∨ k.op = .transition →
    net'.contains d = true
  /-- whatever the other sources are, everything that is left evaluates as before; what has lost its
  inputs reads its own count -/
  eval : ∀ σ : CompId → Bool, σ c = v → (∀ i, Fallen net net' i → σ i = false) →
    ∀ d, net'.contains d = true →
      net'.eval (fun d => if net.inputsOf d = [] then σ d else net'.valueAt d) d = net.eval σ d
  stuck : ∀ σ : CompId → Bool, σ c = v → (∀ i, Fallen net net' i → σ i = false) →
    ∀ d k', net'.get? d = some k' → k'.op = .proposition ∨ k'.op = .transition → k'.inputs = [] →
      net.inputsOf d ≠ [] → k'.count = countOf (net.eval σ d)

theorem Folded.of_purged {net : Network} {c : CompId} {v : Bool} {s : Constants.State}
    (hb : net.Balanced) (ha : net.Acyclic) (h : Purged True net (c, v) s) : Folded net c v s.net := by
  obtain ⟨known, bound, hp⟩ := h
  obtain ⟨start, val, hval, hf⟩ := hp.stage.folding
  obtain ⟨hstd, hset⟩ := hf.settled hp.stage.idle trivial
  constructor
  case balanced => exact hf.balanced
  case settled => exact hset
  case standard => exact hstd
  case quiet =>
    intro b
    have hout : s.net.edgesOut c b = 0 := by
      rcases hf.quiet c (.inl (mem_map.mpr ⟨(c, v), hp.mem, rfl⟩)) with hm | h0
      · rw [hp.stage.idle] at hm
        exact absurd hm not_mem_nil
      · exact h0 b
    have hin := hf.balanced c b
    rw [hout] at hin
    exact ⟨count_eq_zero.mp hin.symm, count_eq_zero.mp hout⟩
  case old => exact fun d k' hk' => hf.core.old d k'.front (front?_of_get? hk')
  case kept =>
    intro d k hk hop
    obtain ⟨kf, hkf⟩ := hf.core.kept d k hk hop
    obtain ⟨k', hk', -⟩ := exists_of_front? hkf
    exact contains_of_get? hk'
  case eval =>
    intro σ hσ hfallen d hd
    have hknown := hp.known_eval hb ha hσ hfallen
    have hobey : s.net.Obeys (net.eval σ) := by
      intro e op hop hne
      obtain ⟨k, hk, rfl⟩ := Option.map_eq_some_iff.mp hop
      rw [inputsOf_of_get? hk] at hne ⊢
      exact hf.core.obeys _ hknown e k.front (front?_of_get? hk) hne
    refine (hobey.eq_eval hf.balanced (hf.acyclic ha) (fun e he hnil => ?_) d hd).symm
    obtain ⟨k, hk⟩ := contains_iff.mp he
    rw [inputsOf_of_get? hk] at hnil
    by_cases hsrc : net.inputsOf e = []
    · rw [if_pos hsrc, eval_of_source σ hsrc]
    · rw [if_neg hsrc, valueAt_of_get? hk, hp.stage.stored trivial hknown hk hnil hsrc]
  case stuck =>
    intro σ hσ hfallen d k' hk' hop hnil hne
    have hknown := hp.known_eval hb ha hσ hfallen
    have hg : k'.isGate = false := by
      rcases hop with hop | hop <;> rw [Component.isGate, hop] <;> rfl
    rw [← hp.stage.stored trivial hknown hk' hnil hne, (hstd d k' hk').value_of_plain hg]
    rcases hp.stage.bits trivial d k' hk' hg fun _ => hne with h0 | h1
    · rw [h0]; rfl
    · rw [h1]; rfl

/-- Folding a proposition or constant without inputs is sound. An input may only be stuck at false. -/
theorem foldConstant_folded (net : Network) {c : CompId} {k : Component} {v : Bool}
    (hb : net.Balanced) (ha : net.Acyclic) (hs : net.Settled) (hstd : net.Standard)
    (hn : net.Narrow)
    (hinput : ∀ i k, net.get? i = some k → k.hasRole .input = true → k.inputs = [])
    (hbits : ∀ d k, net.get? d = some k → k.inputs = [] → k.op = .proposition ∨ k.op = .constant →
      k.count = 0 ∨ k.count = 1)
    (hpaired : ∀ l i k, net.pairedInput? l = some i → net.get? i = some k →
      k.hasRole .input = true)
    (hk : net.get? c = some k) (hop : k.op = .proposition ∨ k.op = .constant)
    (hnil : k.inputs = []) (hv : k.hasRole .input = true → v = false) :
    (net.foldConstant c v).Yields fun r => Folded net c v r.1 := by
  have hfold : Foldable True net := by
    refine ⟨hb, ha, hn, fun d k hk hg ht => ?_, fun _ => ⟨hstd, hs⟩, hinput, hpaired, .inl trivial⟩
    by_cases hi : k.inputs = []
    · refine hbits d k hk hi ?_
      cases hop : k.op with
      | proposition => exact .inl rfl
      | constant => exact .inr rfl
      | transition =>
        have hne := ht hop
        rw [inputsOf_of_get? hk] at hne
        exact absurd hi hne
      | and | or | not => rw [Component.isGate, hop] at hg; cases hg
    · exact hs.count_bit hn hk hg hi
  have hg : k.isGate = false := by
    rcases hop with hop | hop <;> rw [Component.isGate, hop] <;> rfl
  have htrans : k.op ≠ .transition := by
    rcases hop with hop | hop <;> rw [hop] <;> decide
  refine (foldConstant_purged hfold hk hnil hg htrans (.inl trivial) hv).mono fun r hr => ?_
  obtain ⟨s, hs, hr⟩ := hr
  rw [← hr]
  exact .of_purged hb ha hs

/-- Once the lamp is lit for good, pressing the button is no longer legal, and the button falls too. -/
theorem foldConstant_folded_lamp : lamp.Balanced ∧ lamp.Acyclic ∧ lamp.Settled ∧ lamp.Standard ∧
    lamp.Narrow ∧ (lamp.foldConstant 0 true).Yields fun r => Folded lamp 0 true r.1 := by
  refine ⟨lamp_balanced, lamp_acyclic, by decide, by decide, by decide, ?_⟩
  refine foldConstant_folded lamp lamp_balanced lamp_acyclic (by decide) (by decide) (by decide)
    (forall_components.mpr (by decide)) (forall_components.mpr (by decide)) (fun l i k hl hk => ?_)
    (c := 0) rfl (.inl rfl) rfl (by decide)
  obtain ⟨k', hk', hrole⟩ := paired_of_components (by decide) l i hl
  rw [hk] at hk'
  cases hk'
  exact hrole

def turnstile : Network where
  slots := #[
    some { kind := .proposition { role := .base, term := .atom "open" }, outputs := [1], count := 1 },
    some { kind := .proposition { role := .legal, term := .atom "enter", pairedInput := some 2 }
           inputs := [0], count := 1 },
    some { kind := .not, outputs := [3], sign := -1 },
    some { kind := .proposition { role := .terminal, term := .atom "terminal" }, inputs := [2], count := 1 }]
  bases := [0]
  terminal := 3

/-- Once the turnstile is shut for good, the NOT is folded at false, but the terminal stays true. -/
theorem turnstile_not_folded : turnstile.Balanced ∧ turnstile.Acyclic ∧ turnstile.Settled ∧
    turnstile.Standard ∧ turnstile.Narrow ∧
    (∀ i k, turnstile.get? i = some k → k.hasRole .input = true → k.inputs = []) ∧
    (∀ d k, turnstile.get? d = some k → k.inputs = [] → k.op = .proposition ∨ k.op = .constant →
      k.count = 0 ∨ k.count = 1) ∧
    ∃ net' n k', (turnstile.foldConstant 0 false).listen.1 = .ok (net', n) ∧ Fallen turnstile net' 2 ∧
      net'.get? 3 = some k' ∧ k'.inputs = [] ∧ k'.count = 1 ∧ ¬ Folded turnstile 0 false net' := by
  have hranked : turnstile.Ranked fun c => c := by decide
  refine ⟨by decide, hranked.acyclic, by decide, by decide, by decide, forall_components.mpr (by decide),
    forall_components.mpr (by decide), ?_⟩
  have hfold : (do
      let r ← (turnstile.foldConstant 0 false).listen.1
      return (r.1.get? 1, r.1.get? 3) : Checked (Option Component × Option Component)) = .ok
      (some { kind := .proposition { role := .legal, term := .atom "enter", pairedInput := some 2 } },
       some { kind := .proposition { role := .terminal, term := .atom "terminal" }, count := 1 }) := by
    decide +kernel
  obtain ⟨⟨net', n⟩, hok, hget⟩ := exists_of_bind_eq_ok hfold
  obtain ⟨hlegal, hterminal⟩ := Prod.mk.inj (Except.ok.inj hget)
  refine ⟨net', n, _, hok, ⟨1, _, hlegal, rfl, rfl, by decide, rfl, rfl⟩, hterminal, rfl, rfl, fun hf => ?_⟩
  have hcount := hf.stuck (fun _ => false) rfl (fun _ _ => rfl) 3 _ hterminal (.inl rfl) rfl (by decide)
  have heval : turnstile.eval (fun _ => false) 3 = false := by decide
  rw [heval] at hcount
  cases hcount

end Network

end GameNet
