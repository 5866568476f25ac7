import RmdOptions.Document
import RmdOptions.Proofs.Text.Lines

/-!
# Files that are saved and loaded again

A document forgets how each of its rows ended, and all are saved alike. So a file that has been
saved is loaded as the document that was saved, and is saved again as it is.

* `Text.feedsOnly_withLineFeeds` — which files give documents whose rows are their lines;
* `LineEnding.withLineFeeds_write`, `LineEnding.write_ofText_write` — writing line ends and finding
  them again;
* `Document.load_saved` — a document that is saved and loaded.
-/

namespace RmdOptions

namespace Text

variable {t : Text}

theorem withLineFeeds_cons {c : Char} (hc : c ≠ '\r') (t : Text) :
    withLineFeeds (c :: t) = c :: t.withLineFeeds := by
  rw [withLineFeeds, if_neg hc]
  rintro rest rfl
  exact absurd rfl hc

theorem mem_of_mem_withLineFeeds {c : Char} (h : c ∈ t.withLineFeeds) : c = '\n' ∨ c ∈ t := by
  fun_induction withLineFeeds t with
  | case1 rest ih =>
    rcases List.mem_cons.mp h with rfl | h
    · exact Or.inl rfl
    · exact (ih h).imp_right fun h => List.mem_cons_of_mem _ (List.mem_cons_of_mem _ h)
  | case2 d rest _ ih =>
    rcases List.mem_cons.mp h with rfl | h
    · split
      · exact Or.inl rfl
      · exact Or.inr List.mem_cons_self
    · exact (ih h).imp_right fun h => List.mem_cons_of_mem _ h
  | case3 => exact absurd h List.not_mem_nil

/-- When rows end at line feeds and carriage returns only, the document has no other breaks. -/
theorem feedsOnly_withLineFeeds (h : ∀ c ∈ t, isRowBreak c = true → c = '\n' ∨ c = '\r') :
    t.withLineFeeds.FeedsOnly := by
  intro c hc hbreak
  rcases mem_of_mem_withLineFeeds hc with rfl | hmem
  · rfl
  · refine (h c hmem hbreak).resolve_right ?_
    rintro rfl
    exact not_mem_withLineFeeds t hc

theorem hasPair_cons (c : Char) (h : t.hasPair = true) : hasPair (c :: t) = true := by
  rw [hasPair.eq_def]
  split
  · rfl
  · next heq =>
    cases heq
    exact h
  · next heq => cases heq

theorem hasPair_eq_false (h : '\r' ∉ t) : t.hasPair = false := by
  fun_induction hasPair t with
  | case1 rest => simp at h
  | case2 c rest _ ih => exact ih fun hmem => h (List.mem_cons_of_mem _ hmem)
  | case3 => rfl

end Text

namespace LineEnding

variable {t : Text}

theorem write_pair_cons (c : Char) (t : Text) :
    pair.write (c :: t) = if c = '\n' then '\r' :: '\n' :: pair.write t else c :: pair.write t := by
  simp only [write, List.flatMap_cons]
  split <;> rfl

/-- A text that has been saved is held as it was. -/
theorem withLineFeeds_write (ending : LineEnding) (h : '\r' ∉ t) :
    (ending.write t).withLineFeeds = t := by
  cases ending with
  | lineFeed => exact Text.withLineFeeds_of_not_mem h
  | pair =>
    induction t with
    | nil => rfl
    | cons c t ih =>
      rw [List.mem_cons, not_or] at h
      rw [write_pair_cons]
      split
      · next hc => rw [Text.withLineFeeds, ih h.2, hc]
      · rw [Text.withLineFeeds_cons (Ne.symm h.1), ih h.2]

/-- Pairs are found again where there is a row to end. -/
theorem hasPair_write_pair (h : '\n' ∈ t) : (pair.write t).hasPair = true := by
  induction t with
  | nil => cases h
  | cons c t ih =>
    rw [write_pair_cons]
    split
    · rw [Text.hasPair]
    · next hc => exact Text.hasPair_cons c (ih ((List.mem_cons.mp h).resolve_left (Ne.symm hc)))

theorem write_pair_of_not_mem (h : '\n' ∉ t) : pair.write t = t := by
  induction t with
  | nil => rfl
  | cons c t ih =>
    rw [List.mem_cons, not_or] at h
    rw [write_pair_cons, if_neg (Ne.symm h.1), ih h.2]

/-- Where rows end with the pair, a carriage return stands before every line feed. -/
theorem getLast?_of_write_pair {before after : Text} (h : pair.write t = before ++ '\n' :: after) :
    before.getLast? = some '\r' := by
  induction t generalizing before with
  | nil => exact absurd h.symm (List.append_ne_nil_of_right_ne_nil before (List.cons_ne_nil _ _))
  | cons c t ih =>
    rw [write_pair_cons] at h
    split at h
    · rcases before with _ | ⟨first, _ | ⟨second, before⟩⟩
      · cases h
      · cases h
        rfl
      · simp only [List.cons_append, List.cons.injEq] at h
        rw [List.getLast?_cons, List.getLast?_cons, ih h.2.2]
        rfl
    · next hc =>
      rcases before with _ | ⟨first, before⟩
      · exact absurd (List.cons.inj h).1 hc
      · rw [List.getLast?_cons, ih (List.cons.inj h).2]
        rfl

/-- **A text is saved twice like once.** A text of one row has no end that could be told, and is
saved as it is. -/
theorem write_ofText_write (ending : LineEnding) (h : '\r' ∉ t) :
    (ofText (ending.write t)).write t = ending.write t := by
  have hfeed : (ofText t).write t = t := by
    rw [ofText, Text.hasPair_eq_false h]
    rfl
  cases ending with
  | lineFeed => exact hfeed
  | pair =>
    by_cases hrows : '\n' ∈ t
    · rw [ofText, hasPair_write_pair hrows]
      rfl
    · rw [write_pair_of_not_mem hrows]
      exact hfeed

end LineEnding

namespace Document

/-- **A document that is saved and loaded** has the text that it had, and is saved as before. -/
theorem load_saved {doc : Document} (h : '\r' ∉ doc.text) :
    (load doc.saved).text = doc.text ∧ (load doc.saved).ending.write doc.text = doc.saved :=
  ⟨doc.ending.withLineFeeds_write h, doc.ending.write_ofText_write h⟩

end Document

end RmdOptions
