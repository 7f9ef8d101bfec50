import GameNet.Proofs.Term.Pool

/-!
Reading terms into a pool.

Every call keeps what is stored where it is, also a reading that fails on its way, so a pool stays a
faithful table of the terms in it.
-/

namespace GameNet.Term.Pool

open List

variable {p p' p'' p₀ : Pool} {i j : Handle} {r r' : Reading Handle} {done ts : List Token} {tok : Token}

/-! ## Readings -/

def advance (r : Reading Handle) (p : Pool) (tok : Token) : Except ReadError (Reading Handle) × Pool :=
  (Reading.step handles r tok).run p

theorem advance_word (groups : List (List Handle)) (p : Pool) (name : String) :
    advance (.within groups) p (.word name) =
      (.ok (Reading.place (p.atom name).1 groups), (p.atom name).2) := rfl

theorem advance_closing (q : Handle) (parts : List Handle) (groups : List (List Handle)) (p : Pool) :
    advance (.within ((q :: parts) :: groups)) p .closing =
      (.ok (Reading.place (p.group (q :: parts).reverse).1 groups), (p.group (q :: parts).reverse).2) := rfl

def follow (r : Reading Handle) (p : Pool) : List Token → Except ReadError (Reading Handle) × Pool
  | [] => (.ok r, p)
  | tok :: ts =>
    match advance r p tok with
    | (.ok r, p) => follow r p ts
    | (.error e, p) => (.error e, p)

theorem foldlM_run (r : Reading Handle) (p : Pool) (ts : List Token) :
    (ts.foldlM (Reading.step handles) r).run p = follow r p ts := by
  induction ts generalizing r p with
  | nil => rfl
  | cons tok ts ih =>
    have hbind : ((tok :: ts).foldlM (Reading.step handles) r).run p =
        ExceptT.bindCont (fun r => ts.foldlM (Reading.step handles) r) (advance r p tok).1
          (advance r p tok).2 := by
      rw [foldlM_cons]
      rfl
    rw [hbind, follow]
    rcases advance r p tok with ⟨_ | r', p'⟩
    · rfl
    · exact ih r' p'

def settle : Except ReadError (Reading Handle) × Pool → Except ReadError Handle × Pool
  | (.ok (.complete i), p) => (.ok i, p)
  | (.ok (.within _), p) => (.error .malformed, p)
  | (.error e, p) => (.error e, p)

theorem read_eq (p : Pool) (text : String) : p.read text = settle (follow (.within []) p (tokens text)) := by
  have hread : p.read text = (ExceptT.bindCont (m := StateM Pool) (fun r : Reading Handle => r.finish)
      (follow (.within []) p (tokens text)).1) (follow (.within []) p (tokens text)).2 := by
    rw [← foldlM_run]
    rfl
  rw [hread]
  rcases follow (.within []) p (tokens text) with ⟨_ | _ | i, q⟩ <;> rfl

theorem settle_eq_ok_iff {x : Except ReadError (Reading Handle) × Pool} :
    settle x = (.ok i, p) ↔ x = (.ok (.complete i), p) := by
  rcases x with ⟨_ | _ | j, q⟩ <;> simp [settle]

theorem snd_settle (x : Except ReadError (Reading Handle) × Pool) : (settle x).2 = x.2 := by
  rcases x with ⟨_ | _ | j, q⟩ <;> rfl

def spelledGroups (p : Pool) : List (List Handle) → List Token
  | [] => []
  | parts :: groups => spelledGroups p groups ++ .opening :: spellingAll (parts.reverse.map p.expand)

def spelled (p : Pool) : Reading Handle → List Token
  | .complete i => (p.expand i).spelling
  | .within groups => spelledGroups p groups

def inUse : Reading Handle → List Handle
  | .complete i => [i]
  | .within groups => groups.flatten

/-- How far a reading that began with the pool `p₀` has come after the tokens `done`. -/
structure Follows (p₀ : Pool) (done : List Token) (r : Reading Handle) (p : Pool) : Prop where
  sound : p.Sound
  grows : p₀.Grows p
  spells : p.spelled r = done
  live : ∀ q ∈ inUse r, q < p.size ∧ Derives (p.expand q).spelling

theorem follows_start (h : p.Sound) : Follows p [] (.within []) p :=
  ⟨h, .refl p, rfl, forall_mem_nil _⟩

theorem spelledGroups_congr {groups : List (List Handle)}
    (h : ∀ q ∈ groups.flatten, p'.expand q = p.expand q) :
    p'.spelledGroups groups = p.spelledGroups groups := by
  induction groups with
  | nil => rfl
  | cons parts groups ih =>
    have hparts : parts.reverse.map p'.expand = parts.reverse.map p.expand :=
      map_congr_left fun q hq => h q (mem_append_left _ (mem_reverse.mp hq))
    rw [spelledGroups, spelledGroups, hparts, ih fun q hq => h q (mem_append_right _ hq)]

theorem spelled_place (p : Pool) (i : Handle) (groups : List (List Handle)) :
    p.spelled (Reading.place i groups) = p.spelledGroups groups ++ (p.expand i).spelling := by
  cases groups with
  | nil => rfl
  | cons parts groups => simp [Reading.place, spelled, spelledGroups, spellingAll_eq]

theorem Follows.place {groups : List (List Handle)} (h : Follows p₀ done r p)
    (hgroups : groups.flatten ⊆ inUse r) (hs : p'.Sound) (hg : p.Grows p') (hi : i < p'.size)
    (hd : Derives (p'.expand i).spelling)
    (hdone : p.spelledGroups groups ++ (p'.expand i).spelling = done ++ [tok]) :
    Follows p₀ (done ++ [tok]) (Reading.place i groups) p' := by
  have hold : ∀ q ∈ groups.flatten, p'.expand q = p.expand q := fun q hq =>
    h.sound.expand_grows hg hs (h.live q (hgroups hq)).1
  refine ⟨hs, h.grows.trans hg, ?_, fun q hq => ?_⟩
  · rw [spelled_place, spelledGroups_congr hold, hdone]
  have hmem : q = i ∨ q ∈ groups.flatten := by
    cases groups with
    | nil => simpa [Reading.place, inUse] using hq
    | cons parts groups => simpa [Reading.place, inUse, or_assoc] using hq
  rcases hmem with rfl | hq
  · exact ⟨hi, hd⟩
  have hlive := h.live q (hgroups hq)
  rw [hold q hq]
  exact ⟨hg.lt_size hlive.1, hlive.2⟩

theorem Follows.word {groups : List (List Handle)} (h : Follows p₀ done (.within groups) p) (name : String) :
    Follows p₀ (done ++ [.word name]) (Reading.place (p.atom name).1 groups) (p.atom name).2 := by
  have hn := h.sound.interned (Node.fits_atom name p.size)
  have hexpand : (p.atom name).2.expand (p.atom name).1 = .atom name := by
    rw [Pool.atom, hn.2.2]
    split <;> rfl
  have hlt : (p.atom name).1 < (p.atom name).2.size := hn.2.1
  refine h.place (List.Subset.refl _) hn.1 (grows_intern p _) hlt ?_ ?_
  · rw [hexpand]
    exact .atom name
  · rw [hexpand, ← h.spells]
    rfl

theorem Follows.closing {parts : List Handle} {groups : List (List Handle)}
    (h : Follows p₀ done (.within (parts :: groups)) p) (hne : parts ≠ []) :
    Follows p₀ (done ++ [.closing]) (Reading.place (p.group parts.reverse).1 groups)
      (p.group parts.reverse).2 := by
  have hlive : ∀ q ∈ parts.reverse, q < p.size ∧ Derives (p.expand q).spelling := fun q hq =>
    h.live q (mem_append_left _ (mem_reverse.mp hq))
  have hn := h.sound.interned (n := .group parts.reverse) fun q hq => (hlive q hq).1
  have hexpand : (p.group parts.reverse).2.expand (p.group parts.reverse).1 =
      .group (parts.reverse.map p.expand) := hn.2.2
  have hlt : (p.group parts.reverse).1 < (p.group parts.reverse).2.size := hn.2.1
  refine h.place (subset_append_right _ _) hn.1 (grows_intern p _) hlt ?_ ?_
  · rw [hexpand, spelling, spellingAll_eq, flatMap_def, map_map]
    refine .group _ (by simpa using hne) fun part hpart => ?_
    obtain ⟨q, hq, rfl⟩ := mem_map.mp hpart
    exact (hlive q hq).2
  · rw [hexpand, ← h.spells]
    simp [Pool.spelled, spelledGroups, spelling]

/-- One more token. The pool stays sound whatever comes of it. -/
theorem Follows.next (h : Follows p₀ done r p) (tok : Token) :
    (advance r p tok).2.Sound ∧ p₀.Grows (advance r p tok).2 ∧
      ∀ r', (advance r p tok).1 = .ok r' → Follows p₀ (done ++ [tok]) r' (advance r p tok).2 := by
  suffices hcase : (∃ e, advance r p tok = (.error e, p)) ∨
      ∃ r', (advance r p tok).1 = .ok r' ∧ Follows p₀ (done ++ [tok]) r' (advance r p tok).2 by
    rcases hcase with ⟨e, he⟩ | ⟨r', hr', hf⟩
    · rw [he]
      exact ⟨h.sound, h.grows, fun r' hr' => by cases hr'⟩
    refine ⟨hf.sound, hf.grows, fun r'' hr'' => ?_⟩
    rw [hr'] at hr''
    cases hr''
    exact hf
  cases r with
  | complete i => exact .inl ⟨.trailing, rfl⟩
  | within groups =>
    cases tok with
    | opening =>
      refine .inr ⟨_, rfl, h.sound, h.grows, ?_, h.live⟩
      rw [← h.spells]
      rfl
    | word name => exact .inr ⟨_, rfl, h.word name⟩
    | closing =>
      rcases groups with _ | ⟨_ | ⟨q, parts⟩, groups⟩
      · exact .inl ⟨.malformed, rfl⟩
      · exact .inl ⟨.malformed, rfl⟩
      · exact .inr ⟨_, rfl, h.closing (cons_ne_nil q parts)⟩

theorem Follows.run (h : Follows p₀ done r p) (ts : List Token) :
    (follow r p ts).2.Sound ∧ p₀.Grows (follow r p ts).2 ∧
      ∀ r', (follow r p ts).1 = .ok r' → Follows p₀ (done ++ ts) r' (follow r p ts).2 := by
  induction ts generalizing done r p with
  | nil =>
    refine ⟨h.sound, h.grows, fun r' hr' => ?_⟩
    cases hr'
    rw [append_nil]
    exact h
  | cons tok ts ih =>
    have hstep := h.next tok
    rw [follow]
    generalize advance r p tok = out at hstep
    obtain ⟨_ | r', p'⟩ := out
    · exact ⟨hstep.1, hstep.2.1, fun r' hr' => by cases hr'⟩
    · have hrest := ih (hstep.2.2 r' rfl)
      rwa [append_assoc] at hrest

theorem Sound.read (h : p.Sound) (text : String) : (p.read text).2.Sound ∧ p.Grows (p.read text).2 := by
  rw [read_eq, snd_settle]
  have hf := (follows_start h).run (tokens text)
  exact ⟨hf.1, hf.2.1⟩

theorem Sound.spelling_of_read (h : p.Sound) {text : String} (hread : p.read text = (.ok i, p')) :
    i < p'.size ∧ (p'.expand i).spelling = tokens text ∧ Derives (tokens text) := by
  rw [read_eq, settle_eq_ok_iff] at hread
  have hf := ((follows_start h).run (tokens text)).2.2
  rw [hread] at hf
  have hlast := hf _ rfl
  have hlive := hlast.live i mem_cons_self
  have hspells : (p'.expand i).spelling = tokens text := hlast.spells
  exact ⟨hlive.1, hspells, hspells ▸ hlive.2⟩

/-! ## Calls -/

inductive Call where
  | atom (name : String)
  | group (parts : List Handle)
  | read (text : String)

def Admits (p : Pool) : Call → Prop
  | .group parts => ∀ q ∈ parts, q < p.size
  | _ => True

def perform (p : Pool) : Call → Except ReadError Handle × Pool
  | .atom name => (.ok (p.atom name).1, (p.atom name).2)
  | .group parts => (.ok (p.group parts).1, (p.group parts).2)
  | .read text => p.read text

inductive Leads (p : Pool) : Pool → Prop
  | refl : Leads p p
  | step {p' : Pool} (c : Call) : Leads p p' → p'.Admits c → Leads p (p'.perform c).2

theorem Sound.perform (h : p.Sound) {c : Call} (hc : p.Admits c) :
    (p.perform c).2.Sound ∧ p.Grows (p.perform c).2 := by
  cases c with
  | atom name => exact ⟨h.intern (Node.fits_atom name _), grows_intern p _⟩
  | group parts => exact ⟨h.intern hc, grows_intern p _⟩
  | read text => exact h.read text

theorem Leads.sound (h : p.Leads p') (hp : p.Sound) : p'.Sound ∧ p.Grows p' := by
  induction h with
  | refl => exact ⟨hp, .refl p⟩
  | step c _ hc ih =>
    have hstep := ih.1.perform hc
    exact ⟨hstep.1, ih.2.trans hstep.2⟩

/-- After any calls the pool is a faithful table of terms. No node is stored twice, and the index finds
every node and nothing else. Parts have smaller handles than their group, so that printing and the
search for variables go down and end. What a handle stands for never changes, and handles are equal
exactly when their trees are. -/
theorem shared_of_leads (h : Leads {} p) :
    (∀ i j n, p.node? i = some n → p.node? j = some n → i = j) ∧
    (∀ n i, p.index[n]? = some i ↔ p.node? i = some n) ∧
    (∀ i name, p.node? i = some (.const name) → p.render i = name ∧ p.isGround i = true) ∧
    (∀ i name, p.node? i = some (.var name) → p.render i = name ∧ p.isGround i = false) ∧
    (∀ i parts, p.node? i = some (.group parts) → (∀ q ∈ parts, q < i) ∧
      p.render i = "(" ++ " ".intercalate (parts.map p.render) ++ ")" ∧
      p.isGround i = parts.all p.isGround) ∧
    (∀ p', p.Leads p' → ∀ i, i < p.size → p'.node? i = p.node? i ∧ p'.expand i = p.expand i) ∧
    (∀ i j, i < p.size → j < p.size → (i = j ↔ p.expand i = p.expand j)) ∧
    (∀ name, (p.atom name).2.expand (p.atom name).1 = .atom name) ∧
    ∀ parts, (∀ q ∈ parts, q < p.size) →
      (p.group parts).2.expand (p.group parts).1 = .group (parts.map p.expand) := by
  have hs := (h.sound sound_empty).1
  refine ⟨fun i j n hi hj => ?_, hs.index, fun i name hi => ?_, fun i name hi => ?_, fun i parts hi => ?_,
    fun p' hp' i hi => ?_, fun i j hi hj => ⟨fun hij => hij ▸ rfl, hs.expand_inj hi hj⟩, fun name => ?_,
    fun parts hparts => (hs.interned (n := .group parts) hparts).2.2⟩
  · exact Option.some.inj (((hs.index n i).mpr hi).symm.trans ((hs.index n j).mpr hj))
  · have hname : isVariableName name = false := hs.fits i _ hi
    simp [render, isGround, hs.expand hi, denoted, Term.render, Term.isGround, hname]
  · have hname : isVariableName name = true := hs.fits i _ hi
    simp [render, isGround, hs.expand hi, denoted, Term.render, Term.isGround, hname]
  · refine ⟨hs.fits i _ hi, ?_, ?_⟩
    · simp only [render, hs.expand hi, denoted, Term.render, renderParts_eq, List.map_map]
      rfl
    · simp only [isGround, hs.expand hi, denoted, Term.isGround, isGroundAll_eq, List.all_map]
      rfl
  · have hp := hp'.sound hs
    obtain ⟨n, hn⟩ := lt_size_iff.mp hi
    exact ⟨(hp.2 i n hn).trans hn.symm, hs.expand_grows hp.2 hp.1 hi⟩
  · rw [Pool.atom, (hs.interned (Node.fits_atom name p.size)).2.2]
    split <;> rfl

/-- A variable, and a group that holds it twice. -/
theorem shared_of_leads_pair : ∃ p : Pool, Leads {} p ∧ p.node? 0 = some (.var "?x") ∧
    p.isGround 0 = false ∧ (p.group [0, 0]).2.expand (p.group [0, 0]).1 = .group [p.expand 0, p.expand 0] := by
  have hp : Leads {} (perform {} (.atom "?x")).2 := .step (.atom "?x") .refl trivial
  have hnode : (perform {} (.atom "?x")).2.node? 0 = some (.var "?x") := by
    simp [perform, Pool.atom, intern, node?, isVariableName]
  have hlt : 0 < (perform {} (.atom "?x")).2.size := lt_size_iff.mpr ⟨_, hnode⟩
  obtain ⟨-, -, -, hvar, -, -, -, -, hgroup⟩ := shared_of_leads hp
  exact ⟨_, hp, hnode, (hvar 0 "?x" hnode).2, hgroup [0, 0] (by simpa using hlt)⟩

/-! ## Reading again -/

theorem Sound.intern_again {n : Node} (h : p.Sound) (h'' : p''.Sound) (hg : (p.intern n).2.Grows p'') :
    p''.intern n = ((p.intern n).1, p'') := by
  rw [Pool.intern, (h''.index n _).mpr (hg _ _ h.node?_intern)]

theorem Sound.advance_again (h : p.Sound) (h'' : p''.Sound) (hstep : advance r p tok = (.ok r', p'))
    (hg : p'.Grows p'') : advance r p'' tok = (.ok r', p'') := by
  cases r with
  | complete i => cases hstep
  | within groups =>
    cases tok with
    | opening => cases hstep; rfl
    | word name =>
      rw [advance_word, Prod.mk.injEq] at hstep
      obtain ⟨hr, rfl⟩ := hstep
      have hagain : p''.atom name = ((p.atom name).1, p'') := h.intern_again h'' hg
      rw [advance_word, hagain, ← hr]
    | closing =>
      rcases groups with _ | ⟨_ | ⟨q, parts⟩, groups⟩
      · cases hstep
      · cases hstep
      rw [advance_closing, Prod.mk.injEq] at hstep
      obtain ⟨hr, rfl⟩ := hstep
      have hagain : p''.group (q :: parts).reverse = ((p.group (q :: parts).reverse).1, p'') :=
        h.intern_again h'' hg
      rw [advance_closing, hagain, ← hr]

theorem Follows.again (h : Follows p₀ done r p) (h'' : p''.Sound) (hf : follow r p ts = (.ok r', p'))
    (hg : p'.Grows p'') : follow r p'' ts = (.ok r', p'') := by
  induction ts generalizing p₀ done r p with
  | nil => cases hf; rfl
  | cons tok ts ih =>
    have hstep := h.next tok
    rw [follow] at hf ⊢
    cases hadv : advance r p tok with
    | mk res p₁ =>
      rw [hadv] at hf hstep
      cases res with
      | error e => cases hf
      | ok r₁ =>
        have hmid : Follows p₁ (done ++ [tok]) r₁ p₁ := { hstep.2.2 r₁ rfl with grows := .refl p₁ }
        have hgrows : p₁.Grows p' := by
          have hrest := (hmid.run ts).2.1
          dsimp only at hf
          rwa [hf] at hrest
        rw [h.sound.advance_again h'' hadv (hgrows.trans hg)]
        exact ih hmid hf

/-! ## Completeness -/

/-- A term is read to its end, whatever stands around it. -/
theorem follow_of_derives (h : Derives ts) (groups : List (List Handle)) (p : Pool) :
    ∃ i p', ∀ rest, follow (.within groups) p (ts ++ rest) = follow (Reading.place i groups) p' rest := by
  induction h generalizing groups p with
  | atom name => exact ⟨(p.atom name).1, (p.atom name).2, fun rest => rfl⟩
  | group parts hne hd ih =>
    -- the parts are collected in the group that the parenthesis has opened
    have hparts : ∀ (acc : List Handle) (p : Pool), ∃ qs p', qs.length = parts.length ∧ ∀ rest,
        follow (.within (acc :: groups)) p (parts.flatten ++ rest) =
          follow (.within ((qs ++ acc) :: groups)) p' rest := by
      clear hne
      induction parts with
      | nil => exact fun acc p => ⟨[], p, rfl, fun rest => rfl⟩
      | cons part parts ihp =>
        intro acc p
        obtain ⟨q, p₁, hq⟩ := ih part mem_cons_self (acc :: groups) p
        obtain ⟨qs, p₂, hlen, hqs⟩ := ihp (forall_mem_cons.mp hd).2
          (forall_mem_cons.mp ih).2 (q :: acc) p₁
        refine ⟨qs ++ [q], p₂, by simp [hlen], fun rest => ?_⟩
        rw [flatten_cons, append_assoc, hq, Reading.place, hqs, append_assoc]
        rfl
    obtain ⟨qs, p₁, hlen, hqs⟩ := hparts [] p
    cases qs with
    | nil => exact absurd (length_eq_zero_iff.mp hlen.symm) hne
    | cons q qs =>
      refine ⟨(p₁.group (q :: qs).reverse).1, (p₁.group (q :: qs).reverse).2, fun rest => ?_⟩
      have hopen : follow (.within groups) p (.opening :: (parts.flatten ++ [.closing]) ++ rest) =
          follow (.within ([] :: groups)) p (parts.flatten ++ (.closing :: rest)) := by
        rw [cons_append, append_assoc]
        rfl
      rw [hopen, hqs, append_nil]
      rfl

/-- A text is read exactly when its tokens are those of a term, and two texts get one handle exactly
when they have the same tokens. What is printed for a handle that was read is read as that handle, and
adds nothing to the pool; a reading that fails leaves every handle what it was. -/
theorem reading_of_leads (h : Leads {} p) (text : String) :
    (∀ ts, Cuts text.toList ts ↔ tokens text = ts) ∧
    ((∃ i, (p.read text).1 = .ok i) ↔ Derives (tokens text)) ∧
    (∀ i p₁, p.read text = (.ok i, p₁) → ∀ p₂, p₁.Leads p₂ →
      p₂.read (p₂.render i) = (.ok i, p₂) ∧
      ∀ text' j p₃, p₂.read text' = (.ok j, p₃) → (i = j ↔ tokens text = tokens text')) ∧
    ∀ e p₁, p.read text = (.error e, p₁) →
      ∀ i, i < p.size → p₁.node? i = p.node? i ∧ p₁.expand i = p.expand i := by
  have hs := (h.sound sound_empty).1
  refine ⟨fun ts => cuts_iff, ⟨?_, fun hd => ?_⟩, fun i p₁ hread p₂ hlead => ?_, fun e p₁ hread i hi => ?_⟩
  · rintro ⟨i, hi⟩
    exact (hs.spelling_of_read (Prod.ext hi rfl)).2.2
  · obtain ⟨i, p', hf⟩ := follow_of_derives hd [] p
    have hrest := hf []
    rw [List.append_nil] at hrest
    have hread : p.read text = (.ok i, p') := by
      rw [read_eq, settle_eq_ok_iff, hrest]
      rfl
    exact ⟨i, by rw [hread]⟩
  · obtain ⟨hlt, hspell, -⟩ := hs.spelling_of_read hread
    have hs₁ : p₁.Sound := by
      have hkeep := (hs.read text).1
      rwa [hread] at hkeep
    obtain ⟨hs₂, hg₂⟩ := hlead.sound hs₁
    have hagain : ∀ text', tokens text' = tokens text → p₂.read text' = (.ok i, p₂) := by
      intro text' heq
      rw [read_eq, settle_eq_ok_iff] at hread ⊢
      rw [heq]
      exact (follows_start hs).again hs₂ hread hg₂
    have hexpand : p₂.expand i = p₁.expand i := hs₁.expand_grows hg₂ hs₂ hlt
    refine ⟨hagain _ (tokens_render (by rw [hexpand, hspell])), fun text' j p₃ hread' => ⟨?_, fun heq => ?_⟩⟩
    · rintro rfl
      obtain ⟨-, hspell', -⟩ := hs₂.spelling_of_read hread'
      have hg₃ := (hs₂.read text').2
      have hs₃ := (hs₂.read text').1
      rw [hread'] at hg₃ hs₃
      rw [← hspell, ← hspell', hs₂.expand_grows hg₃ hs₃ (hg₂.lt_size hlt), hexpand]
    · rw [hagain text' heq.symm] at hread'
      cases hread'
      rfl
  · have hkeep := hs.read text
    rw [hread] at hkeep
    obtain ⟨n, hn⟩ := lt_size_iff.mp hi
    exact ⟨(hkeep.2 i n hn).trans hn.symm, hs.expand_grows hkeep.2 hkeep.1 hi⟩

/-- A term with blanks to spare, read into a pool in which a group was left open before. -/
theorem reading_of_leads_cell : ∃ (p : Pool) (i : Handle) (p₁ : Pool),
    p = (read {} "(cell 1").2 ∧ Leads {} p ∧ p.read "( cell 1\t(x) )" = (.ok i, p₁) ∧
      p₁.read (p₁.render i) = (.ok i, p₁) := by
  obtain ⟨p, hpool, hp⟩ : ∃ p : Pool, p = (read {} "(cell 1").2 ∧ Leads {} p :=
    ⟨_, rfl, .step (.read "(cell 1") .refl trivial⟩
  have hboth : ∀ text, Derives (tokens text) →
      ∃ i p₁, p.read text = (.ok i, p₁) ∧ p₁.read (p₁.render i) = (.ok i, p₁) := by
    intro text hd
    obtain ⟨-, hok, hread, -⟩ := reading_of_leads hp text
    obtain ⟨i, hi⟩ := hok.mpr hd
    exact ⟨i, _, Prod.ext hi rfl, (hread i _ (Prod.ext hi rfl) _ .refl).1⟩
  have htokens : tokens "( cell 1\t(x) )" =
      [.opening, .word "cell", .word "1", .opening, .word "x", .closing, .closing] := by
    decide +kernel
  have hx : Derives [.opening, .word "x", .closing] :=
    .group [[.word "x"]] (by decide) (by simpa using .atom "x")
  obtain ⟨i, p₁, hread, hagain⟩ := hboth "( cell 1\t(x) )" (by
    rw [htokens]
    refine .group [[.word "cell"], [.word "1"], [.opening, .word "x", .closing]] (by decide) ?_
    simpa using ⟨.atom "cell", .atom "1", hx⟩)
  exact ⟨p, i, p₁, hpool, hp, hread, hagain⟩

end GameNet.Term.Pool
