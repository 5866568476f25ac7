import Mathlib.Data.List.DropRight
import RmdOptions.Text.Basic

/-!
# Pieces of texts

What is left of a text whose ends are dropped, and what it is cut into.

* `Text.dropEndWhile_append_cons`, `Text.exists_eq_dropEndWhile` — dropping the end;
* `Text.takeWhile_dropWhile_append` — cutting once;
* `Text.exists_eq_trim`, `Text.trim_eq`, `Text.trim_append_cons` — dropping white space;
* `Text.cutAt_append` — cutting everywhere.
-/

namespace RmdOptions.Text

variable {p : Char → Bool} {c : Char} {t u : Text}

/-! ## Dropping the end -/

/-- A text is what stays when its end is dropped, and that end. -/
theorem exists_eq_dropEndWhile (p : Char → Bool) (t : Text) :
    ∃ trail, t = dropEndWhile p t ++ trail ∧ ∀ c ∈ trail, p c = true := by
  refine ⟨(t.reverse.takeWhile p).reverse, ?_, fun c hc => ?_⟩
  · rw [dropEndWhile, ← List.reverse_append, List.takeWhile_append_dropWhile, List.reverse_reverse]
  · rw [List.mem_reverse] at hc
    exact List.mem_takeWhile_imp hc

theorem mem_of_mem_dropEndWhile (hc : c ∈ dropEndWhile p t) : c ∈ t := by
  obtain ⟨trail, ht, -⟩ := exists_eq_dropEndWhile p t
  rw [ht]
  exact List.mem_append_left _ hc

/-- What stays begins as the text does. -/
theorem mem_head?_of_dropEndWhile (hc : c ∈ (dropEndWhile p t).head?) : c ∈ t.head? := by
  obtain ⟨trail, ht, -⟩ := exists_eq_dropEndWhile p t
  rw [ht, List.head?_append, Option.mem_def.mp hc]
  rfl

/-- Characters that are not kept make no difference at the end. -/
theorem dropEndWhile_append (h : ∀ c ∈ u, p c = true) (t : Text) :
    dropEndWhile p (t ++ u) = dropEndWhile p t := by
  rw [dropEndWhile, List.reverse_append, List.dropWhile_append_of_pos, dropEndWhile]
  exact fun c hc => h c (List.mem_reverse.mp hc)

/-- Nothing is dropped before a character that is kept. -/
theorem dropEndWhile_append_cons (hc : p c = false) (t u : Text) :
    dropEndWhile p (t ++ c :: u) = t ++ c :: dropEndWhile p u := by
  have hfirst : (c :: t.reverse).dropWhile p = c :: t.reverse :=
    List.dropWhile_cons_of_neg (by simp [hc])
  rw [dropEndWhile, dropEndWhile, List.reverse_append, List.reverse_cons, List.append_assoc,
    List.singleton_append, List.dropWhile_append, hfirst]
  split
  · next hnil => simp [List.isEmpty_iff.mp hnil]
  · simp

/-- What stays when a start is dropped begins with a character of another kind. -/
theorem eq_false_of_head?_dropWhile (hc : c ∈ (t.dropWhile p).head?) : p c = false := by
  have hfirst := List.head?_dropWhile_not p t
  rw [Option.mem_def.mp hc] at hfirst
  exact hfirst

/-- A text is cut where the characters of a kind end. -/
theorem takeWhile_dropWhile_append (ht : ∀ c ∈ t, p c = true)
    (hu : ∀ c ∈ u.head?, p c = false) :
    (t ++ u).takeWhile p = t ∧ (t ++ u).dropWhile p = u := by
  rw [List.takeWhile_append_of_pos ht, List.dropWhile_append_of_pos ht]
  cases u with
  | nil => exact ⟨List.append_nil t, rfl⟩
  | cons c u =>
    have hc : ¬ p c = true := by simp [hu c rfl]
    rw [List.takeWhile_cons_of_neg hc, List.dropWhile_cons_of_neg hc, List.append_nil]
    exact ⟨rfl, rfl⟩

/-! ## Dropping white space -/

/-- A text is its leading white space, what is left of it without white space around it, and more
white space. -/
theorem exists_eq_trim (t : Text) : ∃ trail,
    t = t.takeWhile isWhiteSpace ++ (t.trim ++ trail) ∧ ∀ c ∈ trail, isWhiteSpace c = true := by
  obtain ⟨trail, ht, htrail⟩ := exists_eq_dropEndWhile isWhiteSpace t.trimStart
  refine ⟨trail, ?_, htrail⟩
  rw [trim, trimEnd, ← ht, trimStart, List.takeWhile_append_dropWhile]

/-- A character of a text is white space or stays when the text is trimmed. -/
theorem isWhiteSpace_or_mem_trim (hc : c ∈ t) : isWhiteSpace c = true ∨ c ∈ t.trim := by
  obtain ⟨trail, ht, htrail⟩ := t.exists_eq_trim
  rw [ht, List.mem_append, List.mem_append] at hc
  rcases hc with hc | hc | hc
  · exact Or.inl (List.mem_takeWhile_imp hc)
  · exact Or.inr hc
  · exact Or.inl (htrail c hc)

theorem mem_of_mem_trim (hc : c ∈ t.trim) : c ∈ t :=
  (List.dropWhile_suffix isWhiteSpace).subset (mem_of_mem_dropEndWhile hc)

/-- White space at the end makes no difference to what trimming leaves. -/
theorem trim_append (h : ∀ c ∈ u, isWhiteSpace c = true) (t : Text) : trim (t ++ u) = trim t := by
  rw [trim, trimStart, List.dropWhile_append]
  split
  · next hnil =>
    rw [List.dropWhile_eq_nil_iff.mpr h, trim, trimStart, List.isEmpty_iff.mp hnil]
  · exact dropEndWhile_append h _

/-- Nor does white space at the start. -/
theorem trim_prepend (h : ∀ c ∈ u, isWhiteSpace c = true) (t : Text) : trim (u ++ t) = trim t := by
  rw [trim, trimStart, List.dropWhile_append_of_pos h, trim, trimStart]

/-- Nothing is left of white space only. -/
theorem trim_eq_nil_iff : trim t = [] ↔ ∀ c ∈ t, isWhiteSpace c = true := by
  refine ⟨fun h c hc => ?_, fun h => trim_append h []⟩
  rcases isWhiteSpace_or_mem_trim hc with hwhite | hkept
  · exact hwhite
  · rw [h] at hkept
    cases hkept

/-- What trimming leaves does not begin with white space. -/
theorem isWhiteSpace_of_head?_trim (hc : c ∈ t.trim.head?) : isWhiteSpace c = false :=
  eq_false_of_head?_dropWhile (mem_head?_of_dropEndWhile hc)

/-- Nor does it end with any. -/
theorem isWhiteSpace_of_getLast?_trim (hc : c ∈ t.trim.getLast?) : isWhiteSpace c = false := by
  rw [trim, trimEnd, dropEndWhile, List.getLast?_reverse] at hc
  exact eq_false_of_head?_dropWhile hc

theorem trim_trimEnd (t : Text) : trim (trimEnd t) = trim t := by
  obtain ⟨trail, ht, htrail⟩ := exists_eq_dropEndWhile isWhiteSpace t
  have htrim := trim_append htrail (dropEndWhile isWhiteSpace t)
  rw [← ht] at htrim
  exact htrim.symm

theorem trim_trimStart (t : Text) : trim (trimStart t) = trim t := by
  rw [trim, trimStart, trimStart, List.dropWhile_idempotent, trim, trimStart]

/-- Trimming around a character that stays. -/
theorem trim_append_cons (hc : isWhiteSpace c = false) (t u : Text) :
    trim (t ++ c :: u) = trimStart t ++ c :: trimEnd u := by
  have hstart : trimStart (t ++ c :: u) = trimStart t ++ c :: u := by
    rw [trimStart, List.dropWhile_append, List.dropWhile_cons_of_neg (by simp [hc]), trimStart]
    split
    · next hnil => rw [List.isEmpty_iff.mp hnil, List.nil_append]
    · rfl
  rw [trim, hstart, trimEnd, dropEndWhile_append_cons hc, trimEnd]

/-- White space around a text that neither begins nor ends with any is what trimming drops. -/
theorem trim_eq {lead : Text} (hlead : ∀ c ∈ lead, isWhiteSpace c = true)
    (hu : ∀ c ∈ u, isWhiteSpace c = true) (hfirst : ∀ c ∈ t.head?, isWhiteSpace c = false)
    (hlast : ∀ c ∈ t.getLast?, isWhiteSpace c = false) : trim (lead ++ (t ++ u)) = t := by
  rw [← List.append_assoc, trim_append hu, trim_prepend hlead, trim, trimStart]
  cases t with
  | nil => rfl
  | cons c t =>
    rw [List.dropWhile_cons_of_neg (by simp [hfirst c rfl])]
    rcases List.eq_nil_or_concat (c :: t) with hnil | ⟨front, last, hfront⟩
    · cases hnil
    · rw [hfront, List.concat_eq_append] at hlast ⊢
      have hkept : isWhiteSpace last = false := hlast last (by simp)
      exact dropEndWhile_append_cons hkept front []

/-! ## Cutting everywhere -/

/-- A start without cuts belongs to the first piece. -/
theorem cutAt_append (h : ∀ c ∈ u, p c = false) (t : Text) :
    cutAt p (u ++ t) = (cutAt p t).modifyHead (u ++ ·) := by
  obtain ⟨first, rest, hcut⟩ := List.exists_cons_of_ne_nil (cutAt_ne_nil p t)
  induction u with
  | nil => rw [List.nil_append, hcut]; rfl
  | cons c u ih =>
    have hc : ¬ p c = true := by simp [h c List.mem_cons_self]
    rw [List.cons_append, cutAt, if_neg hc, ih fun d hd => h d (List.mem_cons_of_mem _ hd), hcut]
    rfl

/-- A text without cuts is one piece. -/
theorem cutAt_of_forall (h : ∀ c ∈ u, p c = false) : cutAt p u = [u] := by
  have hcut := cutAt_append h []
  rwa [List.append_nil, cutAt, List.modifyHead_cons, List.append_nil] at hcut

/-- A piece ends at the first cut. -/
theorem cutAt_append_cons (h : ∀ c ∈ u, p c = false) (hc : p c = true) (t : Text) :
    cutAt p (u ++ c :: t) = u :: cutAt p t := by
  rw [cutAt_append h, cutAt, if_pos hc, List.modifyHead_cons, List.append_nil]

end RmdOptions.Text
