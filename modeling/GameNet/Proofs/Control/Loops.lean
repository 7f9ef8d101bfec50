import GameNet.Proofs.Control.Forest
import GameNet.Proofs.Variants.Combined

/-!
Control loops in play.

Every base of a loop takes over the value that some base of the loop has.
-/

namespace GameNet

open List

namespace Control

/-! ## Links -/

section Links

variable {links : Links} {link : CompId × CompId} {x : CompId} {walks : Walks} {walk : Nat}

def Closed (links : Links) : Prop := ∀ link ∈ links, (links.lookup link.2).isSome = true

theorem exists_of_lookup_isSome (h : (links.lookup x).isSome) : ∃ link ∈ links, link.1 = x :=
  mem_map.mp (lookup_isSome_iff.mp h)

theorem mem_dead : x ∈ dead walks walk links ↔ ∃ i, (x, i) ∈ links ∧ (links.lookup i).isNone := by
  rw [dead, mem_map]
  constructor
  · rintro ⟨link, hlink, rfl⟩
    obtain ⟨hmem, hnone⟩ := mem_filter.mp hlink
    exact ⟨link.2, (walks.perm walk links).mem_iff.mp hmem, hnone⟩
  · rintro ⟨i, hmem, hnone⟩
    exact ⟨(x, i), mem_filter.mpr ⟨(walks.perm walk links).mem_iff.mpr hmem, hnone⟩, rfl⟩

theorem mem_foldl_erase (bs : List CompId) : ∀ links : Links,
    link ∈ bs.foldl (fun links b => links.erase b) links ↔ link ∈ links ∧ link.1 ∉ bs := by
  induction bs with
  | nil => simp
  | cons b bs ih =>
    intro links
    rw [foldl_cons, ih, Table.erase, mem_filter, decide_eq_true_eq, mem_cons, not_or, and_assoc]

theorem prune_subset (walks : Walks) (walk : Nat) (links : Links) : prune walks walk links ⊆ links := by
  fun_induction prune walks walk links with
  | case1 => exact List.Subset.refl _
  | case2 walk links b bs hdead ih =>
    exact List.Subset.trans ih fun link hlink => ((mem_foldl_erase _ links).mp hlink).1

theorem closed_prune (walks : Walks) (walk : Nat) (links : Links) : Closed (prune walks walk links) := by
  fun_induction prune walks walk links with
  | case1 walk links hdead =>
    intro link hlink
    by_contra hnone
    have hmem : link.1 ∈ dead walks walk links :=
      mem_dead.mpr ⟨link.2, hlink, Option.isNone_iff_eq_none.mpr (Option.not_isSome_iff_eq_none.mp hnone)⟩
    rw [hdead] at hmem
    cases hmem
  | case2 walk links b bs hdead ih => exact ih

end Links

end Control

theorem Checked.filterM_ensures {α : Type} (f : α → Checked Bool) (as : List α) :
    (as.filterM f).Ensures (· ⊆ as) := by
  suffices haux : ∀ acc, (List.filterAuxM f as acc).Ensures (· ⊆ as ++ acc) by
    refine Checked.partly.bind (haux []) fun as' h => Checked.partly.pure fun a ha => ?_
    simpa using h (mem_reverse.mp ha)
  induction as with
  | nil => exact fun acc => Checked.partly.pure (List.Subset.refl acc)
  | cons a as ih =>
    intro acc
    rw [List.filterAuxM]
    refine Checked.partly.bind (P := fun _ => True) (fun _ _ => trivial) fun keep _ => ?_
    cases keep with
    | false => exact Checked.partly.mono (ih acc) fun as' h => List.Subset.trans h (subset_cons_self a _)
    | true =>
      refine Checked.partly.mono (ih (a :: acc)) fun as' h => List.Subset.trans h fun x hx => ?_
      simp only [mem_append, mem_cons, cons_append] at hx ⊢
      tauto

theorem Component.drivenBase?_eq_some {k : Component} {b : CompId} :
    k.drivenBase? = some b ↔ k.kind = .transition (some b) := by
  unfold Component.drivenBase?
  cases k.kind <;> simp

namespace Network

open Control

/-! ## Bases that take over values -/

def Copies (net : Network) (i b : CompId) : Prop :=
  ∃ t ∈ net.transitions, net.inputsOf t = [i] ∧ net.kind? t = some (.transition (some b))

instance (net : Network) (i b : CompId) : Decidable (net.Copies i b) :=
  inferInstanceAs (Decidable (∃ t ∈ net.transitions, _ ∧ _))

def CopiesOnce (net : Network) (group : List CompId) : Prop :=
  ∀ i ∈ group, ∀ b ∈ group, ∀ b' ∈ group, net.Copies i b → net.Copies i b' → b = b'

instance (net : Network) (group : List CompId) : Decidable (net.CopiesOnce group) :=
  inferInstanceAs (Decidable (∀ i ∈ group, ∀ b ∈ group, ∀ b' ∈ group, _ → _ → _))

structure ControlLoop (net : Network) (group : List CompId) : Prop where
  nodup : group.Nodup
  copied : ∀ b ∈ group, ∃ i ∈ group, net.Copies i b

def CopiesBy (net : Network) (t b i : CompId) : Prop :=
  net.inputsOf t = [i] ∧ net.kind? t = some (.transition (some b)) ∧ net.isRole i .base = true

section Discovery

variable {net : Network} {group controls : List CompId} {walks : Walks}

theorem linkOf?_exact (net : Network) (t : CompId) :
    (Checked.upTo fun _ => ¬ net.contains t).holds (linkOf? net t) fun link? =>
      net.contains t ∧ ∀ b i, link? = some (b, i) ↔ net.CopiesBy t b i := by
  unfold linkOf? Network.get
  cases hk : net.get? t with
  | none => exact .inr ⟨_, rfl, by simp [contains, hk]⟩
  | some k =>
    have hcopies : ∀ b i, net.CopiesBy t b i ↔
        k.inputs = [i] ∧ k.drivenBase? = some b ∧ net.isRole i .base := by
      intro b i
      rw [CopiesBy, inputsOf_of_get? hk, kind?, hk, Option.map_some, Option.some_inj,
        Component.drivenBase?_eq_some]
    refine (Checked.upTo _).bind (.inl ⟨k, rfl, rfl⟩) fun k' hk' => ?_
    subst hk'
    split
    · next j b' hin hdriven =>
      refine (Checked.upTo _).pure ⟨contains_of_get? hk, fun b i => ?_⟩
      rw [hcopies, hin, hdriven]
      split
      · next hrole =>
        constructor
        · intro h
          cases h
          exact ⟨rfl, rfl, hrole⟩
        rintro ⟨hj, hb, -⟩
        cases hj
        cases hb
        rfl
      · next hrole =>
        constructor
        · intro h
          cases h
        rintro ⟨hj, -, hbase⟩
        cases hj
        exact absurd hbase hrole
    · next hno =>
      refine (Checked.upTo _).pure ⟨contains_of_get? hk, fun b i => ?_⟩
      rw [hcopies]
      constructor
      · intro h
        cases h
      · rintro ⟨hin, hdriven, -⟩
        exact (hno i b hin hdriven).elim

theorem linkOf?_ensures {t : CompId} (ht : t ∈ net.transitions) :
    (linkOf? net t).Ensures fun link? => ∀ link, link? = some link → net.Copies link.2 link.1 := by
  refine Checked.Ensures.mono (.of_upTo (net.linkOf?_exact t)) fun link? h link hlink => ?_
  obtain ⟨hin, hkind, -⟩ := (h.2 link.1 link.2).mp hlink
  exact ⟨t, ht, hin, hkind⟩

theorem controlLoops_ensures (hsub : controls ⊆ net.transitions) :
    (net.controlLoopsBy walks controls).Ensures fun gs => ∃ links, gs = groups walks links ∧ Closed links ∧
      ∀ link ∈ links, net.Copies link.2 link.1 := by
  unfold controlLoopsBy
  refine Checked.partly.bind (Checked.partly.foldlM (fun ts (links : Links) => ts ⊆ net.transitions ∧
    ∀ link ∈ links, net.Copies link.2 link.1) (fun t ts links hinv => ?_) controls []
    ⟨hsub, fun link hlink => (not_mem_nil hlink).elim⟩) fun links hlinks => ?_
  · obtain ⟨hts, hlinks⟩ := hinv
    have hts' := cons_subset.mp hts
    refine Checked.partly.bind (linkOf?_ensures hts'.1) fun link? hlink? => ?_
    refine Checked.partly.pure ⟨hts'.2, ?_⟩
    cases link? with
    | none => exact hlinks
    | some link =>
      intro other hother
      rcases mem_set.mp hother with ⟨hother, -⟩ | rfl
      · exact hlinks other hother
      · exact hlink? link rfl
  · exact Checked.partly.pure ⟨_, rfl, closed_prune _ _ links, fun link hlink =>
      hlinks.2 link (prune_subset _ _ links hlink)⟩

theorem controlLoop_of_controlLoops (hc : net.controls = .ok controls)
    (h : net.controlLoops controls = .ok [group]) : net.ControlLoop group := by
  obtain ⟨links, hgroups, hclosed, hcopies⟩ := controlLoops_ensures (Checked.filterM_ensures _ _ _ hc) _ h
  have hcomps := components_groups (R := fun b i => (b, i) ∈ links) (fun _ _ => Iff.rfl) (fun _ => Iff.rfl) .listed
  rw [← hgroups] at hcomps
  have hmem : ∀ x, x ∈ group ↔ ∃ y, (x, y) ∈ links ∨ (y, x) ∈ links := fun x => by
    refine Iff.trans ?_ (hcomps.covers x)
    simp only [mem_singleton, exists_eq_left]
  refine ⟨(hcomps.ascending group (mem_singleton_self group)).imp Nat.ne_of_lt, fun b hb => ?_⟩
  obtain ⟨link, hlink, rfl⟩ : ∃ link ∈ links, link.1 = b := by
    obtain ⟨y, hy | hy⟩ := (hmem b).mp hb
    · exact ⟨_, hy, rfl⟩
    · exact exists_of_lookup_isSome (hclosed _ hy)
  exact ⟨link.2, (hmem _).mpr ⟨link.1, .inr hlink⟩, hcopies link hlink⟩

end Discovery

/-! ## A turn -/

section Turn

variable {net : Network} {group : List CompId} {b i : CompId}

theorem soleControl_eq_ok_iff {s : BaseState} :
    net.soleControl group s = .ok () ↔ (net.controlsOn group s).length = 1 := by
  unfold soleControl
  split
  · next h => simp [h]
  · next h => simp [h]
  next hone hnil =>
  refine ⟨fun h => (nomatch h), fun h => ?_⟩
  obtain ⟨b, hb⟩ := length_eq_one_iff.mp h
  exact (hone b hb).elim

theorem Copies.get_follow (h : net.Copies i b) (hf : net.Finished) (hi : i ∈ net.bases) (s : BaseState)
    {on : List CompId} (hon : net.Choosable on) :
    (net.follow (net.bitsOf s) on).get (net.bases.idxOf b) = s.get (net.bases.idxOf i) := by
  obtain ⟨t, ht, hin, hkind⟩ := h
  obtain ⟨j, hj⟩ := mem_iff_getElem?.mp ht
  have hlen := hf.formed.driven.length_eq
  have hlt : j < net.bases.length := hlen ▸ (List.getElem?_eq_some_iff.mp hj).1
  have hbj := getElem?_eq_getElem hlt
  obtain rfl : net.bases[j] = b := by
    have hdriven := forall₂_getElem? hf.formed.driven hbj hj
    simpa using hdriven.symm.trans hkind
  have hp := hf.primed
  have heval : net.eval (net.reading (net.bitsOf s) on) t = s.get (net.bases.idxOf i) := by
    have hop : net.op? t = some .transition := op?_of_kind? hkind
    have hcon : net.contains i := contains_of_isRole (hf.formed.base i hi).1
    rw [obeys_eval hp.balanced hp.acyclic _ t _ hop (by simp [hin]), hin,
      Op.read_singleton _ (by decide), hp.eval_reading (net.shows_position _ on) hon hcon, truth,
      eval_of_source _ (hf.formed.base i hi).2, source_of_base _ hi]
    exact on_position hi s
  rw [hf.formed.bases_nodup.idxOf_getElem, follow, BaseState.get_ofBools,
    getD_eq_getElem?_getD, getElem?_map, hj, Option.map_some, Option.getD_some, heval]

/-- The values of a loop come from its bases, each from another one. -/
theorem ControlLoop.exists_perm (h : net.ControlLoop group) (hone : net.CopiesOnce group) :
    ∃ source : CompId → CompId, (∀ b ∈ group, net.Copies (source b) b) ∧ (group.map source).Perm group := by
  choose! source hmem hcopies using h.copied
  refine ⟨source, hcopies, ?_⟩
  have hnodup : (group.map source).Nodup := by
    refine List.Nodup.map_on (fun b hb b' hb' heq => ?_) h.nodup
    exact hone _ (hmem b hb) b hb b' hb' (hcopies b hb) (heq ▸ hcopies b' hb')
  have hsub : group.map source ⊆ group := fun i hi => by
    obtain ⟨b, hb, rfl⟩ := mem_map.mp hi
    exact hmem b hb
  exact (hnodup.subperm hsub).perm_of_length_le (by rw [length_map])

theorem ControlLoop.mem_bases (h : net.ControlLoop group) (hf : net.Finished) (hb : b ∈ group) :
    b ∈ net.bases := by
  obtain ⟨i, -, t, ht, -, hkind⟩ := h.copied b hb
  obtain ⟨b', hb', hdriven⟩ := exists_of_mem_right hf.formed.driven ht
  obtain rfl : b' = b := by simpa using hdriven.symm.trans hkind
  exact hb'

theorem ControlLoop.length_controlsOn_follow (h : net.ControlLoop group) (hf : net.Finished)
    (hone : net.CopiesOnce group) (s : BaseState) {on : List CompId} (hon : net.Choosable on) :
    (net.controlsOn group (net.follow (net.bitsOf s) on)).length = (net.controlsOn group s).length := by
  obtain ⟨source, hcopies, hperm⟩ := h.exists_perm hone
  have hnext : ∀ b ∈ group, (net.follow (net.bitsOf s) on).get (net.bases.idxOf b) =
      s.get (net.bases.idxOf (source b)) := fun b hb => by
    have hsource := h.mem_bases hf (hperm.subset (mem_map_of_mem hb))
    exact (hcopies b hb).get_follow hf hsource s hon
  calc (net.controlsOn group (net.follow (net.bitsOf s) on)).length
      = (group.filter ((fun i => s.get (net.bases.idxOf i)) ∘ source)).length := by
        rw [controlsOn, filter_congr hnext]
        rfl
    _ = ((group.map source).filter fun i => s.get (net.bases.idxOf i)).length := by
        rw [filter_map, length_map]
    _ = (net.controlsOn group s).length := (hperm.filter _).length_eq

end Turn

end Network

/-! ## Play -/

def Machine.play (m : Machine) (moves : List (List CompId)) : Checked Machine :=
  moves.foldlM (fun m legals => do
    let (s, m) ← m.nextState legals
    m.update s) m

section Play

open Network SingleMachine

variable {net : Network} {group : List CompId}

theorem SingleMachine.Showing.move (hf : net.Finished) {bits : List Bool} {m : SingleMachine}
    (h : Showing net bits [] m) {legals : List CompId} (hd : legals.Nodup) :
    (do let (s, m) ← (Machine.single m).nextState legals; m.update s : Checked Machine).Ensures fun m' =>
      ∃ m₁ bits', m' = .single m₁ ∧ net.follow bits (net.chosen legals) = .ofBools bits' ∧
        bits'.length = net.bases.length ∧ Showing net bits' [] m₁ := by
  have hp := hf.primed
  have hnext := h.nextState hp (Request.Distinct.apart hf.formed.toCast (r := .call (.next legals)) hd _)
  intro m' hm'
  obtain ⟨r, hr, hup⟩ := exists_of_bind_eq_ok hm'
  obtain ⟨r₁, hr₁, hrest⟩ := exists_of_bind_eq_ok hr
  cases hrest
  cases hfind : legals.find? fun l => !net.offers bits l with
  | some l =>
    rw [hfind, Option.elim_some] at hnext
    exact nomatch hnext.symm.trans hr₁
  | none =>
    rw [hfind, Option.elim_none] at hnext
    obtain ⟨r₂, hr₂, hfollow, hshow, -⟩ := hnext
    obtain rfl : r₂ = r₁ := Except.ok.inj (hr₂.symm.trans hr₁)
    have hlen : (net.transitions.map (net.eval (net.reading bits (net.chosen legals)))).length =
        net.bases.length := by rw [length_map, hf.formed.driven.length_eq]
    have hsize : r₂.1.size = net.bases.length := by rw [hfollow, follow, BaseState.size_ofBools, hlen]
    have hbases : r₂.2.net.bases = net.bases := CombinedMachine.bases_of_showing hshow
    obtain ⟨m₁, hset, hshow₁, -⟩ := hshow.setState hp r₂.1
    have hdone : (Machine.single r₂.2).update r₂.1 = .ok (.single m₁) := by
      dsimp only [Machine.update, SingleMachine.update, SingleMachine.checkState]
      rw [hbases, if_pos hsize, hset]
      rfl
    obtain rfl : Machine.single m₁ = m' := Except.ok.inj (hdone.symm.trans hup)
    refine ⟨m₁, _, rfl, rfl, hlen, ?_⟩
    rw [hfollow, follow, bitsOf_ofBools hlen] at hshow₁
    exact hshow₁

/-- One base of the loop stays on through all moves. -/
theorem Network.ControlLoop.play (h : net.ControlLoop group) (hf : net.Finished)
    (hone : net.CopiesOnce group) (moves : List (List CompId)) (hd : ∀ legals ∈ moves, legals.Nodup)
    {m : SingleMachine} {bits : List Bool} (hshow : Showing net bits [] m)
    (hlen : bits.length = net.bases.length) (hsole : net.soleControl group (.ofBools bits) = .ok ()) :
    ((Machine.single m).play moves).Ensures fun m' => ∃ s, m'.currentState = .ok s ∧
      net.soleControl group s = .ok () := by
  refine Checked.partly.mono (Checked.partly.foldlM (fun moves m => (∀ legals ∈ moves, legals.Nodup) ∧
    ∃ m₁ bits, m = .single m₁ ∧ Showing net bits [] m₁ ∧ bits.length = net.bases.length ∧
      net.soleControl group (.ofBools bits) = .ok ()) ?_ moves _ ⟨hd, m, bits, rfl, hshow, hlen, hsole⟩) ?_
  · rintro legals moves _ ⟨hd, m, bits, rfl, hshow, hlen, hsole⟩
    refine Checked.partly.mono (hshow.move hf (hd legals mem_cons_self)) ?_
    rintro _ ⟨m₁, bits', rfl, hfollow, hlen', hshow'⟩
    refine ⟨(forall_mem_cons.mp hd).2, m₁, bits', rfl, hshow', hlen', ?_⟩
    have hturn := h.length_controlsOn_follow hf hone (.ofBools bits) (choosable_chosen hf.primed legals)
    rw [bitsOf_ofBools hlen, hfollow] at hturn
    rw [soleControl_eq_ok_iff] at hsole ⊢
    rw [hturn, hsole]
  · rintro _ ⟨-, m₁, bits', rfl, hshow', hlen', hsole'⟩
    exact ⟨_, hshow'.currentState hf.primed hlen', hsole'⟩

theorem CombinedMachine.select_of_soleControl {m : CombinedMachine} {s : BaseState}
    (hpos : m.parts.toList.map (·.position) = group.map net.bases.idxOf)
    (h : net.soleControl group s = .ok ()) : ∃ k, m.select s = .ok k := by
  have hlen : (m.parts.toList.zipIdx.filter fun x => s.get x.1.position).length = 1 :=
    calc (m.parts.toList.zipIdx.filter ((fun i => s.get i) ∘ (·.position) ∘ Prod.fst)).length
        = (((m.parts.toList.zipIdx.map Prod.fst).map (·.position)).filter fun i => s.get i).length := by
          rw [map_map, filter_map, length_map]
      _ = ((group.map net.bases.idxOf).filter fun i => s.get i).length := by
          rw [zipIdx_map_fst, hpos]
      _ = (net.controlsOn group s).length := by
          rw [filter_map, length_map]
          rfl
      _ = 1 := soleControl_eq_ok_iff.mp h
  obtain ⟨x, hx⟩ := length_eq_one_iff.mp hlen
  exact ⟨x.2, by rw [CombinedMachine.select, hx]; rfl⟩

end Play

namespace Listing

open Network

/-- A single control loop has one base on in every state of every play if it has in the initial state, as
long as no base of it is taken over by two others. -/
theorem soleControl_of_play (l : Listing) (hb : l.Balanced) (ha : l.Acyclic) (opts : Options)
    {net : Network} {controls group : List CompId} (h : (l.compile opts).listen.1 = .ok net)
    (hcontrols : net.controls = .ok controls) (hloops : net.controlLoops controls = .ok [group])
    (hinit : net.soleControl group (.ofBools net.initialState) = .ok ())
    (hone : net.CopiesOnce group) (strategy : Strategy) :
    ∃ whole, SingleMachine.new net strategy = .ok whole ∧
      ∀ moves : List (List CompId), (∀ legals ∈ moves, legals.Nodup) →
      ∀ m', (Machine.single whole).play moves = .ok m' →
      ∃ s, m'.currentState = .ok s ∧ (net.controlsOn group s).length = 1 ∧
        ∀ m : CombinedMachine, m.parts.toList.map (·.position) = group.map net.bases.idxOf →
          ∃ k, m.select s = .ok k := by
  obtain ⟨cut, last, hc⟩ := compiled_of_ok hb ha h
  have hfin := hc.finished
  have hloop := controlLoop_of_controlLoops hcontrols hloops
  obtain ⟨whole, hnew, hshow, -⟩ := SingleMachine.new_yields hfin.primed strategy
  rw [bitsOf_ofBools hc.width] at hshow
  refine ⟨whole, hnew, fun moves hd m' hm' => ?_⟩
  obtain ⟨s, hs, hsole⟩ := hloop.play hfin hone moves hd hshow hc.width hinit m' hm'
  exact ⟨s, hs, soleControl_eq_ok_iff.mp hsole, fun m hpos =>
    CombinedMachine.select_of_soleControl hpos hsole⟩

theorem soleControl_of_play_relay : ∃ net controls whole m' s,
    (relay.compile {}).listen.1 = .ok net ∧ net.controls = .ok controls ∧
    net.controlLoops controls = .ok [[0, 1]] ∧ net.CopiesOnce [0, 1] ∧
    SingleMachine.new net .depthFirst = .ok whole ∧
    (Machine.single whole).play [[9], [9], [9]] = .ok m' ∧ m'.currentState = .ok s ∧
    (net.controlsOn [0, 1] s).length = 1 := by
  have hok : (do
      let net ← (relay.compile {}).listen.1
      let controls ← net.controls
      let loops ← net.controlLoops controls
      let _ ← net.soleControl [0, 1] (.ofBools net.initialState)
      let whole ← SingleMachine.new net .depthFirst
      let _ ← (Machine.single whole).play [[9], [9], [9]]
      return (loops, decide (net.CopiesOnce [0, 1])) : Checked (List (List CompId) × Bool)) =
        .ok ([[0, 1]], true) := by decide +kernel
  obtain ⟨net, hnet, hok⟩ := exists_of_bind_eq_ok hok
  obtain ⟨controls, hcontrols, hok⟩ := exists_of_bind_eq_ok hok
  obtain ⟨loops, hloops, hok⟩ := exists_of_bind_eq_ok hok
  obtain ⟨u, hinit, hok⟩ := exists_of_bind_eq_ok hok
  obtain ⟨whole, hwhole, hok⟩ := exists_of_bind_eq_ok hok
  obtain ⟨m', hm', hok⟩ := exists_of_bind_eq_ok hok
  obtain ⟨rfl, hone⟩ := Prod.mk.inj (Except.ok.inj hok)
  have hone := of_decide_eq_true hone
  obtain ⟨whole', hnew, h⟩ := soleControl_of_play relay relay_balanced relay_acyclic {} hnet hcontrols
    hloops hinit hone .depthFirst
  obtain rfl : whole' = whole := Except.ok.inj (hnew.symm.trans hwhole)
  obtain ⟨s, hs, hsole, -⟩ := h [[9], [9], [9]] (by decide) m' hm'
  exact ⟨net, controls, whole', m', s, hnet, hcontrols, hloops, hone, hnew, hm', hs, hsole⟩

def fork : Listing where
  roles := ["hand"]
  components := #[
    { id := 0, count := 0, op := .transition, inputs := [7], outputs := [1] },
    { id := 1, count := 0, op := .proposition, inputs := [0], outputs := [2, 4]
      label := some (.base, "(true stem)") },
    { id := 2, count := 0, op := .transition, inputs := [1], outputs := [3] },
    { id := 3, count := 0, op := .proposition, inputs := [2], outputs := [7, 11]
      label := some (.base, "(true left)") },
    { id := 4, count := 0, op := .transition, inputs := [1], outputs := [5] },
    { id := 5, count := 0, op := .proposition, inputs := [4], outputs := [9, 11]
      label := some (.base, "(true right)") },
    { id := 6, count := 0, op := .proposition, outputs := [7], label := some (.init, "init") },
    { id := 7, count := 0, op := .or, inputs := [3, 6], outputs := [0] },
    { id := 8, count := 0, op := .proposition, label := some (.input, "(does hand pass)") },
    { id := 9, count := 0, op := .not, inputs := [5], outputs := [10] },
    { id := 10, count := 0, op := .proposition, inputs := [9]
      label := some (.legal, "(legal hand pass)") },
    { id := 11, count := 0, op := .and, inputs := [3, 5], outputs := [12] },
    { id := 12, count := 0, op := .proposition, inputs := [11], label := some (.terminal, "terminal") }]

theorem fork_acyclic : fork.Acyclic := by
  have h : fork.Ranked fun c => [2, 0, 1, 0, 1, 0, 0, 1, 0, 1, 2, 1, 2].getD c 0 := by decide +kernel
  exact h.acyclic

/-- The three bases are the only control loop and one of them is on at the start, but the first move puts
two of them on. -/
theorem fork_ambiguous : fork.Balanced ∧ fork.Acyclic ∧ (do
      let net ← (fork.compile {}).listen.1
      let loops ← net.controlLoops (← net.controls)
      let start := BaseState.ofBools net.initialState
      let whole ← SingleMachine.new net .depthFirst
      let s ← (← (Machine.single whole).play [[10]]).currentState
      return (loops, net.controlsOn [0, 1, 2] start, net.controlsOn [0, 1, 2] s) :
        Checked (List (List CompId) × List CompId × List CompId)) =
      .ok ([[0, 1, 2]], [0], [1, 2]) :=
  ⟨by decide +kernel, fork_acyclic, by decide +kernel⟩

end Listing

end GameNet
