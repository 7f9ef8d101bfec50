import GameNet.Term.Reader

/-!
The grammar of terms.

A text is cut into parentheses and the longest words between them, and a term is a word or a group of at
least one term.
-/

namespace GameNet.Term

open List

/-! ## Tokens -/

def Wordly (c : Char) : Prop := c ≠ '(' ∧ c ≠ ')' ∧ Text.isBlank c = false

def Stops (cs : List Char) : Prop := ∀ c ∈ cs.head?, ¬ Wordly c

/-- A text and its tokens: parentheses stand for themselves, blanks for nothing, and a word goes on for
as long as it can. -/
inductive Cuts : List Char → List Token → Prop
  | nil : Cuts [] []
  | blank {c cs ts} : Text.isBlank c = true → Cuts cs ts → Cuts (c :: cs) ts
  | opening {cs ts} : Cuts cs ts → Cuts ('(' :: cs) (.opening :: ts)
  | closing {cs ts} : Cuts cs ts → Cuts (')' :: cs) (.closing :: ts)
  | word {w cs ts} : w ≠ [] → (∀ c ∈ w, Wordly c) → Stops cs → Cuts cs ts →
      Cuts (w ++ cs) (.word (String.ofList w) :: ts)

def Token.Proper : Token → Prop
  | .word name => name.toList ≠ [] ∧ ∀ c ∈ name.toList, Wordly c
  | _ => True

variable {c : Char} {pending cs : List Char} {ts : List Token}

theorem Cuts.flush (hpending : ∀ c ∈ pending, Wordly c) (hstop : Stops cs) (h : Cuts cs ts) :
    Cuts (pending.reverse ++ cs) (Token.flush pending ts) := by
  cases pending with
  | nil => exact h
  | cons c pending =>
    exact h.word (by simp) (fun d hd => hpending d (mem_reverse.mp hd)) hstop

theorem cuts_scan (pending cs : List Char) (hpending : ∀ c ∈ pending, Wordly c) :
    Cuts (pending.reverse ++ cs) (Token.scan pending cs) := by
  fun_induction Token.scan pending cs with
  | case1 pending => exact Cuts.nil.flush hpending (by simp [Stops])
  | case2 pending cs ih =>
    exact (Cuts.opening (ih (by simp))).flush hpending (by simp [Stops, Wordly])
  | case3 pending cs _ ih =>
    exact (Cuts.closing (ih (by simp))).flush hpending (by simp [Stops, Wordly])
  | case4 pending c cs _ _ hblank ih =>
    exact (Cuts.blank hblank (ih (by simp))).flush hpending (by simp [Stops, Wordly, hblank])
  | case5 pending c cs ho hc hblank ih =>
    have hcs := ih (forall_mem_cons.mpr ⟨⟨ho, hc, by simpa using hblank⟩, hpending⟩)
    rwa [reverse_cons, append_assoc] at hcs

theorem scan_append (w : List Char) (hw : ∀ c ∈ w, Wordly c) (pending cs : List Char) :
    Token.scan pending (w ++ cs) = Token.scan (w.reverse ++ pending) cs := by
  induction w generalizing pending with
  | nil => rfl
  | cons c w ih =>
    obtain ⟨⟨ho, hc, hblank⟩, hw⟩ := forall_mem_cons.mp hw
    rw [cons_append, Token.scan, if_neg ho, if_neg hc, hblank, if_neg Bool.false_ne_true, ih hw,
      reverse_cons, append_assoc]
    rfl

theorem scan_of_stops (hstop : Stops cs) (pending : List Char) :
    Token.scan pending cs = Token.flush pending (Token.scan [] cs) := by
  cases cs with
  | nil => rfl
  | cons c cs =>
    have hc : ¬ Wordly c := hstop c rfl
    have hempty : ∀ ts, Token.flush [] ts = ts := fun ts => rfl
    simp only [Token.scan, hempty]
    split
    · rfl
    next ho =>
    split
    · rfl
    next hclose =>
    split
    · rfl
    · next hblank => exact absurd ⟨ho, hclose, by simpa using hblank⟩ hc

theorem cuts_iff {text : String} : Cuts text.toList ts ↔ tokens text = ts := by
  constructor
  · intro h
    rw [tokens]
    generalize text.toList = cs at h
    induction h with
    | nil => rfl
    | @blank c cs ts hblank _ ih =>
      have ho : c ≠ '(' := by rintro rfl; cases hblank
      have hc : c ≠ ')' := by rintro rfl; cases hblank
      rw [Token.scan, if_neg ho, if_neg hc, if_pos hblank, ih]
      rfl
    | opening _ ih => rw [Token.scan, if_pos rfl, ih]; rfl
    | closing _ ih => rw [Token.scan, if_neg (by decide), if_pos rfl, ih]; rfl
    | word hne hw hstop _ ih =>
      rw [scan_append _ hw, scan_of_stops hstop, ih, append_nil, Token.flush, if_neg (by simpa using hne),
        reverse_reverse]
  · rintro rfl
    exact cuts_scan [] text.toList (by simp)

theorem Cuts.proper (h : Cuts cs ts) : ∀ tok ∈ ts, tok.Proper := by
  induction h with
  | nil => simp
  | blank _ _ ih => exact ih
  | opening _ ih => exact forall_mem_cons.mpr ⟨trivial, ih⟩
  | closing _ ih => exact forall_mem_cons.mpr ⟨trivial, ih⟩
  | word hne hw _ _ ih =>
    refine forall_mem_cons.mpr ⟨?_, ih⟩
    rw [Token.Proper, String.toList_ofList]
    exact ⟨hne, hw⟩

/-! ## Terms -/

inductive Derives : List Token → Prop
  | atom (name : String) : Derives [.word name]
  | group (parts : List (List Token)) : parts ≠ [] → (∀ part ∈ parts, Derives part) →
      Derives (.opening :: (parts.flatten ++ [.closing]))

mutual

def spelling : Term → List Token
  | .atom name => [.word name]
  | .group parts => .opening :: (spellingAll parts ++ [.closing])

def spellingAll : List Term → List Token
  | [] => []
  | t :: ts => t.spelling ++ spellingAll ts

end

theorem spellingAll_eq (parts : List Term) : spellingAll parts = parts.flatMap spelling := by
  induction parts with
  | nil => rfl
  | cons t parts ih => rw [spellingAll, ih, flatMap_cons]

theorem isGroundAll_eq (parts : List Term) : isGroundAll parts = parts.all isGround := by
  induction parts with
  | nil => rfl
  | cons t parts ih => rw [isGroundAll, ih, all_cons]

theorem renderParts_eq (parts : List Term) : renderParts parts = " ".intercalate (parts.map render) := by
  induction parts with
  | nil => rfl
  | cons t parts ih =>
    cases parts with
    | nil => rw [renderParts, map_singleton, String.intercalate_singleton]
    | cons u parts =>
      simp only [renderParts, ih]
      exact String.intercalate_cons_cons.symm

mutual

theorem cuts_render : ∀ (t : Term) {cs : List Char} {ts : List Token}, (∀ tok ∈ t.spelling, tok.Proper) →
    Stops cs → Cuts cs ts → Cuts (t.render.toList ++ cs) (t.spelling ++ ts)
  | .atom name, cs, ts, hproper, hstop, h => by
    have hname : (Token.word name).Proper := hproper _ (by simp [spelling])
    have hword := h.word hname.1 hname.2 hstop
    rwa [String.ofList_toList] at hword
  | .group parts, cs, ts, hproper, _, h => by
    have hparts := cuts_renderParts parts (fun tok htok => hproper tok (by simp [spelling, htok]))
      (by simp [Stops, Wordly]) h.closing
    simpa [render, spelling] using hparts.opening

theorem cuts_renderParts : ∀ (parts : List Term) {cs : List Char} {ts : List Token},
    (∀ tok ∈ spellingAll parts, tok.Proper) → Stops cs → Cuts cs ts →
    Cuts ((renderParts parts).toList ++ cs) (spellingAll parts ++ ts)
  | [], _, _, _, _, h => h
  | [t], _, _, hproper, hstop, h => by
    simp only [spellingAll, append_nil, renderParts] at hproper ⊢
    exact cuts_render t hproper hstop h
  | t :: u :: parts, cs, ts, hproper, hstop, h => by
    rw [spellingAll] at hproper ⊢
    have hrest := cuts_renderParts (u :: parts) (fun tok htok => hproper tok (mem_append_right _ htok))
      hstop h
    have ht := cuts_render t (fun tok htok => hproper tok (mem_append_left _ htok))
      (by simp [Stops, Wordly, Text.isBlank, Text.blankRanges]) (Cuts.blank (c := ' ') (by decide) hrest)
    simpa [renderParts] using ht

end

/-- What a term is printed as is cut into its spelling. -/
theorem tokens_render {t : Term} {text : String} (h : tokens text = t.spelling) :
    tokens t.render = tokens text := by
  have hproper : ∀ tok ∈ t.spelling, tok.Proper := (cuts_iff.mpr h).proper
  have hcuts := cuts_render t hproper (by simp [Stops]) Cuts.nil
  rw [append_nil, append_nil] at hcuts
  rw [cuts_iff.mp hcuts, h]

end GameNet.Term
