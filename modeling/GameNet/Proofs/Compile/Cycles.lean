import GameNet.Proofs.Compile.Calm
import GameNet.Proofs.Compile.Meaning
import GameNet.Proofs.Schedule.Heights

/-!
A listing without cycles is compiled without a word about cycles, provided that everything in it that
reads nothing and is read has its value from somewhere.

A proposition of no such role that nothing drives is not among them, and what reads it waits for it in
vain, with or without a cycle.
-/

namespace GameNet

open Checked

/-! ## Heads -/

namespace Network

def Headed (net : Network) : Prop := ∀ c, net.IsHead c → net.IsSource c ∨ c ∈ net.legals

section Headed

variable {keep : CompId → Prop} {net net' : Network} {c : CompId}

theorem Supplied.headed (hs : net.Supplied) (hg : net.Grounded) : net.Headed := by
  intro c hc
  obtain ⟨k, hk⟩ := contains_iff.mp hc.contains
  refine hs c k hk (Bool.eq_false_iff.mpr fun hgate => hg c k hk hgate ?_) hc
  exact (inputsOf_of_get? hk).symm.trans hc.1

theorem IsSource.of_parts (hparts : net'.parts = net.parts) (hop : net'.op? c = net.op? c)
    (h : net.IsSource c) : net'.IsSource c := by
  rwa [IsSource, field_of_parts Network.bases hparts, field_of_parts Network.inputs hparts,
    field_of_parts Network.init hparts, hop]

theorem Sound.headed (h : Sound keep net net') (hr : net.Headed) : net'.Headed := by
  intro c hc
  have hold := h.isHead hc
  refine (hr c hold).imp (IsSource.of_parts h.parts (h.op? hold.contains hc.contains)) fun hl => ?_
  rwa [field_of_parts Network.legals h.parts]

theorem Recounts.headed (h : Recounts net net') (hr : net.Headed) : net'.Headed := by
  intro c hc
  rw [IsHead, h.inputsOf, h.outputsOf] at hc
  refine (hr c hc).imp (IsSource.of_parts h.parts (h.op? c)) fun hl => ?_
  rwa [field_of_parts Network.legals h.parts]

/-! ## Scheduling -/

theorem Cast.role_of_source (h : net.Cast) (hc : net.IsSource c) :
    net.op? c = some .constant ∨ ∃ role, net.isRole c role ∧ role ≠ .legal := by
  rcases hc with hb | hi | hi | hop
  · exact .inr ⟨.base, (h.base c hb).1, by decide⟩
  · exact .inr ⟨.input, h.inputs c hi, by decide⟩
  · exact .inr ⟨.init, h.init c hi, by decide⟩
  · exact .inl hop

theorem Cast.contains_of_source (h : net.Cast) (hc : net.IsSource c) : net.contains c := by
  rcases h.role_of_source hc with hop | ⟨role, hrole, -⟩
  · exact contains_of_op? hop
  · exact contains_of_isRole hrole

theorem Cast.not_late_of_source (h : net.Cast) (hc : net.IsSource c) : ¬ net.IsLate c := by
  rintro (hl | ht)
  · have hlegal := (h.legal c hl).1
    rcases h.role_of_source hc with hop | ⟨role, hrole, hne⟩
    · rw [op?_of_isRole hlegal] at hop
      cases hop
    · exact hne (isRole_unique hrole hlegal)
  have hop' := h.op?_of_transition ht
  rcases h.role_of_source hc with hop | ⟨role, hrole, -⟩
  · rw [hop'] at hop
    cases hop
  · rw [op?_of_isRole hrole] at hop'
    cases hop'

theorem Formed.schedulable (h : net.Formed) (he : net.Ended) (hu : net.Undriven) (hr : net.Headed) :
    net.Schedulable where
  balanced := h.balanced
  acyclic := h.acyclic
  source c hc := ⟨h.contains_of_source hc, hu c (mem_sources.mpr hc)⟩
  late c hc := by
    rcases hc with hl | ht
    · exact ⟨contains_of_isRole (h.legal c hl).1, he c hl⟩
    · have hop := h.op?_of_transition ht
      exact ⟨contains_of_op? hop, h.transition c hop⟩
  supplied c hi ho := (hr c ⟨hi, ho⟩).resolve_right fun hl => ho (he c hl)
  apart _ := h.not_late_of_source
  distinct c hl ht := by
    have hop := h.op?_of_transition ht
    rw [op?_of_isRole (h.legal c hl).1] at hop
    cases hop

end Headed

end Network

theorem Observed.Calm.of_silent {α : Type} {x : Observed α} {P : α → Prop}
    (h : Observed.silent.holds x P) : x.Calm := by
  intro told
  obtain ⟨a, ha, -⟩ := h told
  rw [ha]
  exact ⟨⟨fun _ _ => trivial, calm_pure a⟩, fun _ he _ => he⟩

namespace Network

theorem Formed.calm_schedule {net : Network} (h : net.Formed) (he : net.Ended) (hr : net.Headed) :
    net.schedule.Calm := by
  rw [Schedule.schedule_eq]
  refine .bind ?_ fun levels => .lift (by simp [setLevels])
  by_cases hu : net.Undriven
  · exact .of_silent (Schedule.plan_silent (h.schedulable he hu hr))
  · refine .bind_of (.lift ?_) (.lift (start_ensures net)) fun _ h => absurd h hu
    simp [Schedule.start]

theorem Capped.calm_arrange {net capped : Network} {cap : Nat} (h : Capped net cap capped)
    (hr : capped.Headed) (opts : Options) : (capped.arrange opts cap).Calm := by
  refine .bind_of (.lift (calm_recount _ _ _)) (.lift (recount_ensures h.formed.acyclic _ false))
    fun counted hcount => ?_
  refine .bind ((h.formed.recounts hcount.recounts).calm_schedule (hcount.ended h.ended)
    (hcount.recounts.headed hr)) fun net => ?_
  refine .bind (.lift (calm_verify _ _ _)) fun _ => ?_
  refine .bind (.lift (calm_reorderBases _)) fun net => ?_
  refine .bind (.lift (calm_reorderLegals _)) fun net => ?_
  refine .bind (.lift (calm_reorderComponents _)) fun net => ?_
  refine .bind (.lift (calm_verify _ _ _)) fun _ => ?_
  exact .bind (.stage _ _) fun _ => .pure _

theorem calm_finish {net : Network} (hf : net.Formed) (hfit : net.Fitted) (hs : net.Seeded) (he : net.Ended)
    (opts : Options) {cap : Nat} (ht : 0 < cap → Trimming net)
    (hr : ∀ capped, Capped net cap capped → capped.Headed) : (net.finish opts cap).Calm := by
  rw [finish_eq]
  split
  · next hcap =>
    refine .bind_of (.lift (calm_capFanIn _ _)) (.lift ((ht hcap).capFanIn hfit hcap)) fun r h => ?_
    exact .bind_of (.pure _) (.pure h) fun capped hc => hc.calm_arrange (hr capped hc) opts
  · next hcap =>
    have hc : Capped net cap net := .nothing hf hfit hs he (Nat.eq_zero_of_not_pos hcap)
    exact .bind_of (.pure _) (.pure hc) fun capped hc => hc.calm_arrange (hr capped hc) opts

end Network

/-! ## Listings -/

namespace Listing

open Network

/-- The value of the row does not come from other rows. Only raw leaves gates without inputs in. -/
def mayLead (l : Listing) (level : OptLevel) (r : RawComponent) : Bool :=
  match r.op, r.label with
  | .and, _ | .or, _ | .not, _ => decide (level ≠ .raw)
  | .transition, _ | .constant, _ => true
  | .proposition, some (.base, _) | .proposition, some (.input, _) | .proposition, some (.init, _) => true
  | .proposition, some (.legal, _) => (l.inputFor? r.id.toNat).isSome
  | .proposition, _ => false

def Founded (l : Listing) (level : OptLevel) : Prop :=
  ∀ r ∈ l.components.toList, r.inputs = [] → r.outputs ≠ [] → l.mayLead level r = true

instance (l : Listing) (level : OptLevel) : Decidable (l.Founded level) :=
  inferInstanceAs (Decidable (∀ _ ∈ _, _))

section Founded

variable {l : Listing} {level : OptLevel} {flat net cut : Network} {pairs : List (CompId × CompId)}
  {c : CompId}
variable (h : Built l flat pairs net) (hcut : Severed net pairs cut)
include h hcut

theorem Built.row_of_isHead (hc : cut.IsHead c) (hbase : c ∉ cut.bases) :
    ∃ r, l.row? c = some r ∧ r.inputs = [] ∧ r.outputs ≠ [] := by
  have hbases : cut.bases = pairs.map (·.2) :=
    (field_of_parts Network.bases hcut.parts).trans h.recorded.bases_eq
  obtain ⟨hin, hout⟩ := hc
  rw [hcut.inputsOf, if_neg (hbases ▸ hbase), h.inputsOf, Listing.inputsOf] at hin
  rw [hcut.outputsOf] at hout
  split at hout
  · exact absurd rfl hout
  rw [h.outputsOf, Listing.outputsOf] at hout
  cases hr : l.row? c with
  | none => rw [hr] at hout; exact absurd rfl hout
  | some r =>
    rw [hr] at hin hout
    exact ⟨r, rfl, List.map_eq_nil_iff.mp hin, fun ho => hout (by rw [Option.elim_some, ho]; rfl)⟩

theorem Built.source_of_lists {role : PropRole} (hlists : l.Lists c role)
    (hrole : role = .base ∨ role = .input ∨ role = .init ∨ role = .legal ∧ (l.inputFor? c).isSome) :
    cut.IsSource c ∨ c ∈ cut.legals := by
  have hmem := h.lists_iff.mp hlists
  have hflat := h.isRole_iff_mem.mpr hmem
  rcases hrole with rfl | rfl | rfl | ⟨rfl, hi⟩
  · refine .inl (.inl ?_)
    rw [field_of_parts Network.bases hcut.parts, h.recorded.bases_eq, h.recorded.driven]
    exact Network.mem_withRole.mpr hflat
  · refine .inl (.inr (.inl ?_))
    have hinputs : net.inputs = (flat.mapComponents Component.fitThresholds).withRole .input := by
      have hparts := congrArg Network.inputs h.recorded.parts
      exact hparts
    rw [field_of_parts Network.inputs hcut.parts, hinputs]
    exact Network.mem_withRole.mpr hflat
  · refine .inl (.inr (.inr (.inl ?_)))
    exact (field_of_parts Network.init hcut.parts).trans (h.init_of_lists hlists)
  · rw [field_of_parts Network.legals hcut.parts, h.recorded.mem_legals h.placed.unrecorded,
      h.counterpart?_eq hmem]
    exact .inr ⟨hflat, hi⟩

theorem Built.source_of_isHead (hcast : cut.Cast) (hf : l.Founded level) {k : Component}
    (hk : cut.get? c = some k) (hg : k.isGate → level = .raw) (hc : cut.IsHead c) :
    cut.IsSource c ∨ c ∈ cut.legals := by
  by_cases hbase : c ∈ cut.bases
  · exact .inl (.inl hbase)
  obtain ⟨r, hr, hin, hout⟩ := h.row_of_isHead hcut hc hbase
  obtain ⟨hid, hmem⟩ := id_of_rowIn? hr
  have hlead := hf r hmem hin hout
  have hop := (h.op_count_of_row? hcut hk hr).1
  have hgate : r.op.isGate → level = .raw := fun hgate => hg (by rwa [Component.isGate, hop])
  have hop? : cut.op? c = some r.op := (op?_of_get? hk).trans (congrArg some hop)
  cases hro : r.op with
  | and | or | not =>
    rw [mayLead, hro, hgate (by rw [hro]; rfl)] at hlead
    cases hlead
  | transition => exact absurd (hcast.transition c (hop?.trans (congrArg some hro))) hc.2
  | constant => exact .inl (.inr (.inr (.inr (hop?.trans (congrArg some hro)))))
  | proposition =>
    cases hlabel : r.label with
    | none =>
      rw [mayLead, hro, hlabel] at hlead
      cases hlead
    | some label =>
      obtain ⟨role, text⟩ := label
      refine h.source_of_lists hcut ⟨r, text, hr, hro, hlabel⟩ ?_
      rw [mayLead, hro, hlabel] at hlead
      cases role with
      | base => exact .inl rfl
      | input => exact .inr (.inl rfl)
      | init => exact .inr (.inr (.inl rfl))
      | legal => exact .inr (.inr (.inr ⟨rfl, hid ▸ hlead⟩))
      | goal | terminal | other => cases hlead

theorem Built.supplied (hcast : cut.Cast) (hf : l.Founded level) : cut.Supplied :=
  fun _ _ hk hg => h.source_of_isHead hcut hcast hf hk fun hgate => absurd hgate (by rw [hg]; decide)

theorem Built.headed (hcast : cut.Cast) (hf : l.Founded .raw) : cut.Headed := by
  intro c hc
  obtain ⟨k, hk⟩ := contains_iff.mp hc.contains
  exact h.source_of_isHead hcut hcast hf hk (fun _ => rfl) hc

end Founded

theorem calm_compile (l : Listing) (opts : Options) (hb : l.Balanced) (ha : l.Acyclic)
    (hf : l.Founded opts.level) : (l.compile opts).Calm := by
  unfold compile
  refine .bind_of l.calm_build (build_ensures l) fun built hbuilt => ?_
  obtain ⟨flat, pairs, hbuilt⟩ := hbuilt
  refine .bind (.stage _ _) fun _ => ?_
  refine .bind_of (.lift (by simp [cutTransitions, cutTransition])) (.lift hbuilt.cut_ensures) fun cut hcut => ?_
  obtain ⟨hform, hfit⟩ := hbuilt.formed hcut hb ha
  split
  · next hraw =>
    -- nothing is folded, so the gates have to be fed, too
    have hheaded := hbuilt.headed hcut hform.toCast (hraw ▸ hf)
    refine .bind_of (.lift (calm_endAtLegals _)) (.lift
      ((Sound.refl hform.balanced hform.acyclic).endAtLegals hform hfit)) fun r hled => ?_
    have hform₁ := hled.formed hform
    refine .bind_of (.lift (calm_deriveInitialState _)) (.lift (deriveInitialState_ensures hform₁))
      fun derived hd => ?_
    obtain ⟨init, hd⟩ := hd
    refine calm_finish (hd.formed hform₁) (hd.fitted hled.fitted) (hd.seeded hform₁) (hd.ended hled.ended)
      opts (fun h => absurd h (Nat.lt_irrefl 0)) fun capped hcap => ?_
    rw [hcap.uncapped rfl]
    exact hd.recounts.headed (hled.sound.headed hheaded)
  · -- gates without inputs are folded, and no others come to be heads
    refine .bind_of (calm_simplify _ _) (hform.simplify opts) fun last hlast => ?_
    obtain ⟨-, htrim, hfit', hg, -, hsup⟩ := hlast
    refine calm_finish htrim.formed hfit' htrim.seeded htrim.ended opts (fun _ => htrim)
      fun capped hcap => ?_
    exact (hcap.supplied (hsup (hbuilt.supplied hcut hform.toCast hf))).headed (hcap.grounded hg)

/-- No listing without cycles is reported to have one: where everything that reads nothing and is read has
its value from somewhere, no cycle is forced, and nothing is left that cannot be scheduled. -/
theorem compile_reports_no_cycle (l : Listing) (opts : Options) (hb : l.Balanced) (ha : l.Acyclic)
    (hf : l.Founded opts.level) :
    (∀ level size, Event.warning (.forcedCycle level size) ∉ (l.compile opts).listen.2) ∧
      ∀ site, (l.compile opts).listen.1 ≠ .error (.compile (.schedule site)) := by
  obtain ⟨⟨-, hfault⟩, hheard⟩ := l.calm_compile opts hb ha hf #[]
  refine ⟨fun level size hmem => ?_, fun site herr => hfault _ herr ⟨site, rfl⟩⟩
  exact absurd (hheard _ hmem ⟨level, size, rfl⟩) (Array.not_mem_empty _)

theorem compile_reports_no_cycle_relay : relay.Balanced ∧ relay.Acyclic ∧ relay.Founded .full ∧
    (relay.compile { level := .full, maxFanIn := 2 }).listen.1.isOk = true ∧
    (∀ level size, Event.warning (.forcedCycle level size) ∉
      (relay.compile { level := .full, maxFanIn := 2 }).listen.2) ∧
    ∀ site, (relay.compile { level := .full, maxFanIn := 2 }).listen.1 ≠ .error (.compile (.schedule site)) := by
  have hf : relay.Founded .full := by decide +kernel
  refine ⟨relay_balanced, relay_acyclic, hf, by decide +kernel, ?_⟩
  exact compile_reports_no_cycle relay { level := .full, maxFanIn := 2 } relay_balanced relay_acyclic hf

def shutter : Listing where
  roles := ["hand"]
  components := #[
    { id := 0, count := 0, op := .transition, inputs := [1], outputs := [1] },
    { id := 1, count := 0, op := .proposition, inputs := [0], outputs := [0, 3]
      label := some (.base, "(true lit)") },
    { id := 2, count := 0, op := .proposition, outputs := [3], label := some (.other, "view") },
    { id := 3, count := 0, op := .and, inputs := [1, 2], outputs := [4] },
    { id := 4, count := 0, op := .proposition, inputs := [3], label := some (.terminal, "terminal") }]

/-- What reads the shutter is taken for a cycle, at every level. -/
theorem shutter_taken_for_cycle : shutter.Balanced ∧ shutter.Acyclic ∧ shutter.build.listen.1.isOk = true ∧
    ∀ level, Event.warning (.forcedCycle 1 1) ∈ (shutter.compile { level, maxFanIn := 2 }).listen.2 := by
  have hranked : shutter.Ranked fun c => [1, 0, 0, 1, 2].getD c 0 := by decide +kernel
  refine ⟨by decide +kernel, hranked.acyclic, by decide +kernel, fun level => ?_⟩
  cases level <;> decide +kernel

end Listing

end GameNet
