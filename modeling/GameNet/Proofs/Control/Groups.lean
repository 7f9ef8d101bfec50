import GameNet.Proofs.Control.Loops

/-!
Which control loops there are.

Each transition that copies one base to another links the two, and a base has at most one link. Pruning
leaves the bases from which the links never end, and grouping collects those that are connected.
-/

namespace GameNet

open List

namespace Control

/-! ## Links that never end -/

section Core

variable {R : CompId → CompId → Prop} {gs : List (List CompId)} {links : Links}

def Inward (R : CompId → CompId → Prop) (T : CompId → Prop) : Prop := ∀ b, T b → ∃ i, T i ∧ R b i

/-- The largest set whose members have links to members. -/
def Core (R : CompId → CompId → Prop) (b : CompId) : Prop := ∃ T, Inward R T ∧ T b

def Inner (R : CompId → CompId → Prop) (b i : CompId) : Prop := Core R b ∧ R b i

theorem inward_core (R : CompId → CompId → Prop) : Inward R (Core R) := by
  rintro b ⟨T, hT, hb⟩
  obtain ⟨i, hi, hbi⟩ := hT b hb
  exact ⟨i, ⟨T, hT, hi⟩, hbi⟩

def Cycle (R : CompId → CompId → Prop) (C : Set CompId) : Prop :=
  ∃ c, Relation.TransGen R c c ∧ C = {x | Relation.ReflTransGen R c x}

theorem exists_cycle {g : List CompId} (hne : g ≠ []) (h : ∀ x ∈ g, ∃ y ∈ g, R x y) :
    ∃ c ∈ g, Relation.TransGen R c c := by
  by_contra hnone
  push Not at hnone
  let leads (x y : {x // x ∈ g}) : Prop := Relation.TransGen R y.1 x.1
  have : Finite {x // x ∈ g} := (finite_toSet g).to_subtype
  have : IsTrans _ leads := ⟨fun _ _ _ hxy hyz => hyz.trans hxy⟩
  have : Std.Irrefl leads := ⟨fun x => hnone x.1 x.2⟩
  obtain ⟨x, hx⟩ := exists_mem_of_ne_nil _ hne
  obtain ⟨last, -, hlast⟩ := (Finite.wellFounded_of_trans_of_irrefl leads).has_min Set.univ ⟨⟨x, hx⟩, trivial⟩
  obtain ⟨y, hy, hxy⟩ := h last.1 last.2
  exact hlast ⟨y, hy⟩ trivial (.single hxy)

section

variable (hfun : ∀ b i i', R b i → R b i' → i = i')
include hfun

theorem Inner.core {b i : CompId} (h : Inner R b i) : Core R i := by
  obtain ⟨i', hi', hbi'⟩ := inward_core R b h.1
  exact hfun b i' i hbi' h.2 ▸ hi'

theorem core_iff (x : CompId) : Core R x ↔ Linked (Inner R) x := by
  constructor
  · intro hx
    obtain ⟨i, -, hxi⟩ := inward_core R x hx
    exact ⟨i, .inl ⟨hx, hxi⟩⟩
  · rintro ⟨y, h | h⟩
    · exact h.1
    · exact h.core hfun

theorem mem_prune (walks : Walks) (walk : Nat) (links : Links) (hR : ∀ b i, (b, i) ∈ links → R b i)
    (h : ∀ b i, Inner R b i → (b, i) ∈ links) : ∀ b i, Inner R b i → (b, i) ∈ prune walks walk links := by
  fun_induction prune walks walk links with
  | case1 => exact h
  | case2 walk links b' bs hdead ih =>
    refine ih (fun b i hbi => hR b i ((mem_foldl_erase _ links).mp hbi).1) fun b i hbi => ?_
    refine (mem_foldl_erase _ links).mpr ⟨h b i hbi, fun hmem => ?_⟩
    -- the base that decides `b` is of the core and has a link of its own
    obtain ⟨i', hbi', hnone⟩ := mem_dead.mp (hdead ▸ hmem)
    obtain rfl : i = i' := hfun b i i' hbi.2 (hR b i' hbi')
    obtain ⟨j, -, hij⟩ := inward_core R i (hbi.core hfun)
    have hkey := lookup_isSome_iff.mpr (mem_map_of_mem (h i j ⟨hbi.core hfun, hij⟩))
    rw [Option.isNone_iff_eq_none.mp hnone] at hkey
    cases hkey

/-- However the links are listed and gone through, pruning leaves those of the core. -/
theorem Lists.prune (h : Lists links R) (walks : Walks) (walk : Nat) :
    Lists (prune walks walk links) (Inner R) := by
  refine fun b i => ⟨fun hbi => ⟨?_, (h b i).mp (prune_subset _ _ _ hbi)⟩,
    mem_prune hfun _ _ links (fun b i hbi => (h b i).mp hbi) (fun b i hbi => (h b i).mpr hbi.2) b i⟩
  refine ⟨fun x => ∃ y, (x, y) ∈ Control.prune walks walk links, fun x hx => ?_, i, hbi⟩
  obtain ⟨y, hxy⟩ := hx
  obtain ⟨link, hlink, hy⟩ := exists_of_lookup_isSome (closed_prune walks walk links _ hxy)
  obtain rfl : link.1 = y := hy
  exact ⟨_, ⟨link.2, hlink⟩, (h x _).mp (prune_subset _ _ _ hxy)⟩

theorem reaches_back {c z : CompId}
    (hc : Relation.TransGen R c c) (h : Relation.ReflTransGen R c z) : Relation.ReflTransGen R z c := by
  induction h with
  | refl => exact .refl
  | @tail b i _ hbi ih =>
    have hloop : Relation.TransGen R b c := by
      rcases Relation.reflTransGen_iff_eq_or_transGen.mp ih with rfl | hbc
      · exact hc
      · exact hbc
    obtain ⟨i', hbi', hback⟩ := Relation.TransGen.head'_iff.mp hloop
    exact hfun b i i' hbi hbi' ▸ hback

theorem join_of_eqvGen {x y : CompId}
    (h : Relation.EqvGen R x y) : Relation.Join (Relation.ReflTransGen R) x y := by
  have hequiv := Relation.equivalence_join_reflTransGen (r := R) fun a b c hab hac =>
    ⟨b, .refl, hfun a b c hab hac ▸ .refl⟩
  induction h with
  | rel x y hxy => exact ⟨y, .single hxy, .refl⟩
  | refl x => exact hequiv.refl x
  | symm x y _ ih => exact hequiv.symm ih
  | trans x y z _ _ ihxy ihyz => exact hequiv.trans ihxy ihyz

/-- Each group of the core has one cycle. -/
theorem Components.existsUnique_cycle (h : Components (Inner R) (Core R) gs) {g : List CompId} (hg : g ∈ gs) :
    ∃! C : Set CompId, (∀ x ∈ C, x ∈ g) ∧ Cycle R C := by
  have hcore : ∀ x ∈ g, Core R x := fun x hx => (h.covers x).mp ⟨g, hg, hx⟩
  have hstep : ∀ x ∈ g, ∀ y, R x y → y ∈ g := fun x hx y hxy =>
    (h.connected g hg x hx y).mpr (.rel _ _ ⟨hcore x hx, hxy⟩)
  obtain ⟨c, hc, hloop⟩ := exists_cycle (R := R) (h.inhabited g hg) fun x hx => by
    obtain ⟨y, -, hxy⟩ := inward_core R x (hcore x hx)
    exact ⟨y, hstep x hx y hxy, hxy⟩
  refine ⟨{x | Relation.ReflTransGen R c x}, ⟨fun x hx => ?_, c, hloop, rfl⟩, ?_⟩
  · induction hx with
    | refl => exact hc
    | tail _ hxy ih => exact hstep _ ih _ hxy
  rintro C ⟨hsub, c', hloop', rfl⟩
  have hc' : c' ∈ g := hsub c' .refl
  -- both cycles are reached from where their links meet
  obtain ⟨z, hz, hz'⟩ := join_of_eqvGen hfun
    (Relation.EqvGen.mono (fun _ _ hbi => hbi.2) _ _ ((h.connected g hg c hc c').mp hc'))
  ext x
  exact ⟨fun hx => hz.trans ((reaches_back hfun hloop' hz').trans hx),
    fun hx => hz'.trans ((reaches_back hfun hloop hz).trans hx)⟩

end

end Core

end Control

namespace Network

open Control

/-! ## The links of a network -/

def Decides (net : Network) (ts : List CompId) (b i : CompId) : Prop :=
  ∃ before t after, ts = before ++ t :: after ∧ net.CopiesBy t b i ∧
    ∀ t' ∈ after, ∀ i', ¬ net.CopiesBy t' b i'

section Decides

variable {net : Network} {ts : List CompId} {t b i : CompId}

theorem decides_concat : net.Decides (ts ++ [t]) b i ↔
    net.CopiesBy t b i ∨ net.Decides ts b i ∧ ∀ i', ¬ net.CopiesBy t b i' := by
  constructor
  · rintro ⟨before, u, after, hts, hu, hlater⟩
    rcases after.eq_nil_or_concat with rfl | ⟨after, v, rfl⟩
    · obtain ⟨rfl, hut⟩ := append_inj' hts rfl
      cases hut
      exact .inl hu
    rw [concat_eq_append] at hts hlater
    rw [← cons_append, ← append_assoc] at hts
    obtain ⟨rfl, hvt⟩ := append_inj' hts rfl
    cases hvt
    exact .inr ⟨⟨before, u, after, rfl, hu, fun t' ht' => hlater t' (mem_append_left _ ht')⟩,
      hlater t (mem_append_right _ mem_cons_self)⟩
  · rintro (h | ⟨⟨before, u, after, rfl, hu, hlater⟩, hno⟩)
    · exact ⟨ts, t, [], rfl, h, forall_mem_nil _⟩
    · refine ⟨before, u, after ++ [t], by simp, hu, fun t' ht' => ?_⟩
      rcases mem_append.mp ht' with ht' | ht'
      · exact hlater t' ht'
      · exact mem_singleton.mp ht' ▸ hno

theorem decides_unique (net : Network) (ts : List CompId) (b i i' : CompId) (h : net.Decides ts b i)
    (h' : net.Decides ts b i') : i = i' := by
  induction ts using List.reverseRecOn with
  | nil =>
    obtain ⟨before, t, after, hts, -⟩ := h
    simp at hts
  | append_singleton ts t ih =>
    rcases decides_concat.mp h with h | ⟨h, hno⟩
    · rcases decides_concat.mp h' with h' | ⟨-, hno'⟩
      · exact (List.cons.inj (h.1.symm.trans h'.1)).1
      · exact absurd h (hno' i)
    · rcases decides_concat.mp h' with h' | ⟨h', -⟩
      · exact absurd h' (hno i')
      · exact ih h h'

theorem exists_decides (ht : t ∈ ts) (h : net.CopiesBy t b i) : ∃ i', net.Decides ts b i' := by
  induction ts using List.reverseRecOn with
  | nil => cases ht
  | append_singleton ts u ih =>
    by_cases hu : ∃ i', net.CopiesBy u b i'
    · obtain ⟨i', hu⟩ := hu
      exact ⟨i', decides_concat.mpr (.inl hu)⟩
    rcases mem_append.mp ht with ht | ht
    · obtain ⟨i', hi'⟩ := ih ht
      exact ⟨i', decides_concat.mpr (.inr ⟨hi', fun j hj => hu ⟨j, hj⟩⟩)⟩
    · exact absurd ⟨i, mem_singleton.mp ht ▸ h⟩ hu

theorem decides_iff_of_single
    (h : ∀ t ∈ ts, ∀ t' ∈ ts, ∀ b i i', net.CopiesBy t b i → net.CopiesBy t' b i' → t = t') :
    net.Decides ts b i ↔ ∃ t ∈ ts, net.CopiesBy t b i := by
  constructor
  · rintro ⟨before, t, after, rfl, ht, -⟩
    exact ⟨t, by simp, ht⟩
  rintro ⟨t, ht, hcopies⟩
  obtain ⟨i', before, u, after, rfl, hu, hlater⟩ := exists_decides ht hcopies
  obtain rfl := h t ht u (by simp) b i i' hcopies hu
  exact ⟨before, t, after, rfl, hcopies, hlater⟩

end Decides

/-- The links that are found are those of the last transitions, if all transitions are there. -/
theorem controlLoops_eq_groups (walks : Walks) (net : Network) (controls : List CompId) :
    (Checked.upTo fun _ => ¬ ∀ t ∈ controls, net.contains t).holds (net.controlLoopsBy walks controls)
      fun gs => (∀ t ∈ controls, net.contains t) ∧
        ∃ links, Lists links (net.Decides controls) ∧ gs = groups walks (prune walks 3 links) := by
  unfold controlLoopsBy
  refine (Checked.upTo _).bind ((Checked.upTo _).foldlM (fun rest (links : Links) => ∃ done,
    controls = done ++ rest ∧ (∀ t ∈ done, net.contains t) ∧ Lists links (net.Decides done))
    (fun t rest links h => ?_) controls [] ⟨[], rfl, by simp, fun b i => ?_⟩) fun links h => ?_
  · obtain ⟨done, rfl, hdone, hlinks⟩ := h
    have hlink : (Checked.upTo fun _ => ¬ ∀ u ∈ done ++ t :: rest, net.contains u).holds
        (linkOf? net t) fun link? =>
          net.contains t ∧ ∀ b i, link? = some (b, i) ↔ net.CopiesBy t b i := by
      refine (net.linkOf?_exact t).imp id ?_
      rintro ⟨e, he, hmissing⟩
      exact ⟨e, he, fun hall => hmissing (hall t (by simp))⟩
    refine (Checked.upTo _).bind hlink fun link? hlink? => (Checked.upTo _).pure ?_
    obtain ⟨ht, hcopies⟩ := hlink?
    refine ⟨done ++ [t], by simp, ?_, fun b i => ?_⟩
    · intro u hu
      rcases mem_append.mp hu with hu | hu
      · exact hdone u hu
      · exact mem_singleton.mp hu ▸ ht
    rw [decides_concat, ← hcopies, ← hlinks b i]
    simp only [← hcopies]
    rcases link? with _ | ⟨b', i'⟩
    · simp
    · simp only [Control.mem_set, Option.some_inj, Prod.mk.injEq]
      grind
  · simp [Decides]
  · obtain ⟨done, hcontrols, hdone, hlinks⟩ := h
    rw [append_nil] at hcontrols
    subst hcontrols
    exact (Checked.upTo _).pure ⟨hdone, links, hlinks, rfl⟩

theorem controlLoopsBy_eq_ok_iff (walks : Walks) (net : Network) (controls : List CompId) :
    (∃ gs, net.controlLoopsBy walks controls = .ok gs) ↔ ∀ t ∈ controls, net.contains t = true := by
  have hspec := net.controlLoops_eq_groups walks controls
  constructor
  · rintro ⟨gs, hgs⟩
    exact (Checked.Ensures.of_upTo hspec gs hgs).1
  · intro hall
    obtain ⟨gs, hgs, -⟩ := Checked.Yields.of_upTo hspec fun _ hno => hno hall
    exact ⟨gs, hgs⟩

theorem components_of_controlLoopsBy (walks : Walks) (net : Network) (controls : List CompId) :
    (net.controlLoopsBy walks controls).Ensures
      (Components (Inner (net.Decides controls)) (Core (net.Decides controls))) := by
  refine Checked.Ensures.mono (.of_upTo (net.controlLoops_eq_groups walks controls)) ?_
  rintro gs ⟨-, links, hlinks, rfl⟩
  have hfun := net.decides_unique controls
  exact components_groups (hlinks.prune hfun walks 3) (core_iff hfun) walks

/-- The loops are found if all transitions are there, in whatever order the tables are gone through. They are
the connected components of the largest set of bases that decide each other, each of them has one cycle, and
the order does not show in them. -/
theorem controlLoops_exact (walks : Walks) (net : Network) (controls : List CompId) :
    ((∃ gs, net.controlLoopsBy walks controls = .ok gs) ↔ ∀ t ∈ controls, net.contains t = true) ∧
    ((net.controlLoopsBy walks controls).Ensures fun gs =>
      Components (Inner (net.Decides controls)) (Core (net.Decides controls)) gs ∧
      (∀ g ∈ gs, ∃! C : Set CompId, (∀ x ∈ C, x ∈ g) ∧ Cycle (net.Decides controls) C) ∧
      ∀ walks', net.controlLoopsBy walks' controls = .ok gs) ∧
    ((∀ t ∈ controls, ∀ t' ∈ controls, ∀ b i i',
        net.CopiesBy t b i → net.CopiesBy t' b i' → t = t') →
      ∀ b i, net.Decides controls b i ↔ ∃ t ∈ controls, net.CopiesBy t b i) := by
  refine ⟨net.controlLoopsBy_eq_ok_iff walks controls, fun gs hgs => ?_,
    fun hsingle b i => decides_iff_of_single hsingle⟩
  have hcomps := net.components_of_controlLoopsBy walks controls gs hgs
  refine ⟨hcomps, fun g hg => hcomps.existsUnique_cycle (net.decides_unique controls) hg, fun walks' => ?_⟩
  obtain ⟨gs', hgs'⟩ := (net.controlLoopsBy_eq_ok_iff walks' controls).mpr
    ((net.controlLoopsBy_eq_ok_iff walks controls).mp ⟨gs, hgs⟩)
  rw [hgs', (net.components_of_controlLoopsBy walks' controls gs' hgs').unique hcomps]

/-- Bases that copy each other: 0 and 1 swap, 2 follows 0, 3 stays, and 4 follows 5, which an input decides.
An earlier transition would have 2 follow 3. -/
def orbits : Network :=
  let base (name : String) : Kind := .proposition { role := .base, term := .atom name }
  { slots := #[
      some { kind := base "swap 0", outputs := [7, 8] },
      some { kind := base "swap 1", outputs := [6] },
      some { kind := base "tail" },
      some { kind := base "fixed", outputs := [9, 13] },
      some { kind := base "late" },
      some { kind := base "free", outputs := [10] },
      some { kind := .transition (some 0), inputs := [1] },
      some { kind := .transition (some 1), inputs := [0] },
      some { kind := .transition (some 2), inputs := [0] },
      some { kind := .transition (some 3), inputs := [3] },
      some { kind := .transition (some 4), inputs := [5] },
      some { kind := .transition (some 5), inputs := [12] },
      some { kind := .proposition { role := .input, term := .atom "choice" }, outputs := [11] },
      some { kind := .transition (some 2), inputs := [3] }]
    bases := [0, 1, 2, 3, 4, 5], inputs := [12], transitions := [6, 7, 8, 9, 10, 11] }

/-- There are two loops, and the one with three bases has a cycle of its own. -/
theorem controlLoops_exact_orbits :
    Components (Inner (orbits.Decides [13, 6, 7, 8, 9, 10, 11]))
      (Core (orbits.Decides [13, 6, 7, 8, 9, 10, 11])) [[0, 1, 2], [3]] ∧
    (∃! C : Set CompId, (∀ x ∈ C, x ∈ [0, 1, 2]) ∧ Cycle (orbits.Decides [13, 6, 7, 8, 9, 10, 11]) C) ∧
    ∀ walks, orbits.controlLoopsBy walks [13, 6, 7, 8, 9, 10, 11] = .ok [[0, 1, 2], [3]] := by
  have hloops : orbits.controlLoops [13, 6, 7, 8, 9, 10, 11] = .ok [[0, 1, 2], [3]] := by decide +kernel
  obtain ⟨hgs, hcycle, hwalks⟩ := (controlLoops_exact .listed orbits _).2.1 _ hloops
  exact ⟨hgs, hcycle _ List.mem_cons_self, hwalks⟩

end Network

end GameNet
