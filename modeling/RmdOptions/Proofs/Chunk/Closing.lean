import RmdOptions.Proofs.Text.Pieces
import RmdOptions.Proofs.Token.Greedy
import RmdOptions.Token.Fence

/-!
# Rows that close blocks

The fence that closes blocks can be any text, and white space around it is left out. A row closes a
block if a pattern matches all of it: white space, the fence, copies of the character that the fence
ends with, and white space again. Since what is left of the fence has no white space at its ends,
the parts of such a row can be told apart: what stands between the white space around the row is the
fence with the copies.

* `Fence.copies`, `Fence.closingRows` — the rows that the pattern matches;
* `Fence.closes_iff` — when a row closes a block, in terms of what is left of it without the white
  space around it; `Fence.closes_iff_replicate` and `Fence.closes_iff_blank` for either kind of fence;
* `Fence.closes_iff_mem` — that these are the rows of the pattern;
* `Fence.closes_pad`, `Fence.closes_lengthen` — padded and lengthened rows;
* `Fence.closes_exactly` — **what rows close a block**, all at once.
-/

namespace RmdOptions.Fence

open Computability

variable {fence line lead row trail more : Text} {c : Char}

/-! ## The pattern -/

/-- Any number of copies of a character, if there is one. -/
def copies : Option Char → Language Char
  | none => 1
  | some c => (Rule.one (· == c))∗

/-- The rows that close a block, part by part. -/
def closingRows (fence : Text) : Language Char :=
  (Rule.one isWhiteSpace)∗ * ({fence.trim} * (copies fence.trim.getLast? *
    (Rule.one isWhiteSpace)∗))

theorem mem_copies_iff {last : Option Char} : more ∈ copies last ↔ ∀ c ∈ more, c ∈ last := by
  cases last with
  | none =>
    rw [copies, Language.mem_one, List.eq_nil_iff_forall_not_mem]
    exact forall₂_congr fun c _ => iff_of_false id (Option.not_mem_none c)
  | some last =>
    rw [copies, Rule.mem_one_star]
    refine forall₂_congr fun c _ => ?_
    rw [beq_iff_eq, Option.mem_some_iff, eq_comm]

theorem mem_copies_some_iff : more ∈ copies (some c) ↔ ∃ n, more = List.replicate n c := by
  rw [mem_copies_iff]
  constructor
  · exact fun h => ⟨more.length,
      List.eq_replicate_of_mem fun d hd => (Option.mem_some_iff.mp (h d hd)).symm⟩
  · rintro ⟨n, rfl⟩ d hd
    rw [List.eq_of_mem_replicate hd]
    rfl

theorem mem_closingRows_iff : line ∈ closingRows fence ↔
    ∃ lead, ∃ more ∈ copies fence.trim.getLast?, ∃ trail,
      line = lead ++ ((fence.trim ++ more) ++ trail) ∧ (∀ c ∈ lead, isWhiteSpace c = true) ∧
        ∀ c ∈ trail, isWhiteSpace c = true := by
  constructor
  · intro h
    obtain ⟨lead, hlead, _, hfenced, rfl⟩ := Language.mem_mul.mp h
    obtain ⟨_, rfl, _, hrest, rfl⟩ := Language.mem_mul.mp hfenced
    obtain ⟨more, hmore, trail, htrail, rfl⟩ := Language.mem_mul.mp hrest
    refine ⟨lead, more, hmore, trail, ?_, Rule.mem_one_star.mp hlead, Rule.mem_one_star.mp htrail⟩
    rw [List.append_assoc]
  · rintro ⟨lead, more, hmore, trail, rfl, hlead, htrail⟩
    rw [List.append_assoc]
    exact Language.append_mem_mul (Rule.mem_one_star.mpr hlead)
      (Language.append_mem_mul (Set.mem_singleton _)
        (Language.append_mem_mul hmore (Rule.mem_one_star.mpr htrail)))

/-! ## What is left of a row -/

/-- A row closes a block if what is left of it without white space around it is the fence and copies
of the character that the fence ends with. -/
theorem closes_iff : closes fence line = true ↔
    ∃ more ∈ copies fence.trim.getLast?, line.trim = fence.trim ++ more := by
  rw [closes]
  cases hafter : Text.after? fence.trim line.trim with
  | none =>
    refine iff_of_false (by simp) ?_
    rintro ⟨more, -, hmore⟩
    rw [Text.after?_eq_some_iff.mpr hmore] at hafter
    cases hafter
  | some more =>
    have hline := Text.after?_eq_some_iff.mp hafter
    have hmore : (∃ more' ∈ copies fence.trim.getLast?, line.trim = fence.trim ++ more') ↔
        more ∈ copies fence.trim.getLast? := by
      refine ⟨?_, fun h => ⟨more, h, hline⟩⟩
      rintro ⟨more', h, heq⟩
      rwa [List.append_cancel_left (hline.symm.trans heq)]
    rw [hmore]
    cases fence.trim.getLast? with
    | none => rw [copies, Language.mem_one, List.isEmpty_iff]
    | some last => rw [copies, Rule.mem_one_star, List.all_eq_true]

/-- The copies are counted. -/
theorem closes_iff_replicate (hlast : c ∈ fence.trim.getLast?) :
    closes fence line = true ↔ ∃ n, line.trim = fence.trim ++ List.replicate n c := by
  rw [closes_iff, Option.mem_def.mp hlast]
  constructor
  · rintro ⟨more, hmore, hline⟩
    obtain ⟨n, rfl⟩ := mem_copies_some_iff.mp hmore
    exact ⟨n, hline⟩
  · rintro ⟨n, hline⟩
    exact ⟨_, mem_copies_some_iff.mpr ⟨n, rfl⟩, hline⟩

/-- Where nothing is left of the fence, blank rows close a block. -/
theorem closes_iff_blank (hblank : fence.trim = []) :
    closes fence line = true ↔ ∀ c ∈ line, isWhiteSpace c = true := by
  rw [closes_iff, hblank, List.getLast?_nil, ← Text.trim_eq_nil_iff]
  constructor
  · rintro ⟨more, hmore, hline⟩
    rw [hline, (Language.mem_one more).mp hmore, List.append_nil]
  · exact fun hline => ⟨[], (Language.mem_one []).mpr rfl, hline⟩

/-- The copies do not change what the fence ends with. -/
theorem getLast?_fenced (h : more ∈ copies fence.trim.getLast?) :
    (fence.trim ++ more).getLast? = fence.trim.getLast? := by
  rw [List.getLast?_append]
  cases hlast : more.getLast? with
  | none => rfl
  | some c => exact (mem_copies_iff.mp h c (List.mem_of_getLast? hlast)).symm

/-- A fence with its copies neither begins nor ends with white space. -/
theorem isWhiteSpace_fenced (h : more ∈ copies fence.trim.getLast?) :
    (∀ c ∈ (fence.trim ++ more).head?, isWhiteSpace c = false) ∧
      ∀ c ∈ (fence.trim ++ more).getLast?, isWhiteSpace c = false := by
  refine ⟨fun c hc => ?_, fun c hc => ?_⟩
  · cases hfence : fence.trim with
    | nil =>
      rw [hfence, List.getLast?_nil, copies, Language.mem_one] at h
      rw [hfence, h] at hc
      cases hc
    | cons d rest =>
      refine Text.isWhiteSpace_of_head?_trim (t := fence) ?_
      rw [hfence] at hc ⊢
      exact hc
  · rw [getLast?_fenced h] at hc
    exact Text.isWhiteSpace_of_getLast?_trim hc

/-- So it is what is left of the rows that the pattern matches. -/
theorem closes_iff_mem : closes fence line = true ↔ line ∈ closingRows fence := by
  rw [closes_iff, mem_closingRows_iff]
  constructor
  · rintro ⟨more, hmore, hline⟩
    obtain ⟨trail, htrim, htrail⟩ := Text.exists_eq_trim line
    rw [hline] at htrim
    exact ⟨_, more, hmore, trail, htrim, fun c hc => List.mem_takeWhile_imp hc, htrail⟩
  · rintro ⟨lead, more, hmore, trail, rfl, hlead, htrail⟩
    obtain ⟨hfirst, hlast⟩ := isWhiteSpace_fenced hmore
    exact ⟨more, hmore, Text.trim_eq hlead htrail hfirst hlast⟩

/-! ## Padded and lengthened rows -/

/-- White space around a row makes no difference. -/
theorem closes_pad (fence line : Text) (hlead : ∀ c ∈ lead, isWhiteSpace c = true)
    (htrail : ∀ c ∈ trail, isWhiteSpace c = true) :
    closes fence (lead ++ (line ++ trail)) = closes fence line := by
  rw [closes, Text.trim_prepend hlead, Text.trim_append htrail]
  rfl

/-- What ends in a character that stays is left with as many copies of it as are put behind it. -/
theorem trim_lengthened (hc : isWhiteSpace c = false) (hlast : c ∈ row.getLast?) (n : Nat) :
    Text.trim (row ++ List.replicate n c) = row.trim ++ List.replicate n c := by
  obtain ⟨front, rfl⟩ := List.getLast?_eq_some_iff.mp hlast
  have hcopies : Text.trimEnd (List.replicate n c) = List.replicate n c := by
    simp [Text.trimEnd, Text.dropEndWhile, hc]
  rw [List.append_assoc, List.singleton_append, Text.trim_append_cons hc, Text.trim_append_cons hc,
    hcopies, List.append_assoc]
  rfl

/-- A row that closes a block still does when copies of its last character are put behind it. -/
theorem closes_lengthen (h : closes fence row = true) (hlast : c ∈ row.getLast?) (n : Nat) :
    closes fence (row ++ List.replicate n c) = true := by
  cases hc : isWhiteSpace c with
  | true =>
    have hwhite : ∀ d ∈ List.replicate n c, isWhiteSpace d = true := fun d hd => by
      rwa [List.eq_of_mem_replicate hd]
    have hpad := closes_pad fence row (List.forall_mem_nil _) hwhite
    rwa [List.nil_append, h] at hpad
  | false =>
    obtain ⟨more, hmore, hrow⟩ := closes_iff.mp h
    -- what the row ends with is what the fence ends with
    have hfence : c ∈ fence.trim.getLast? := by
      obtain ⟨front, rfl⟩ := List.getLast?_eq_some_iff.mp hlast
      rw [← getLast?_fenced hmore, ← hrow, Text.trim_append_cons hc]
      exact List.getLast?_concat
    obtain ⟨m, hm⟩ := (closes_iff_replicate hfence).mp h
    refine (closes_iff_replicate hfence).mpr ⟨m + n, ?_⟩
    rw [trim_lengthened hc hlast, hm, List.append_assoc, List.replicate_append_replicate]

/-- White space behind the row does not matter for that. -/
theorem closes_lengthen_pad (h : closes fence (row ++ trail) = true)
    (htrail : ∀ c ∈ trail, isWhiteSpace c = true) (hlast : c ∈ row.getLast?) (n : Nat) :
    closes fence (row ++ (List.replicate n c ++ trail)) = true := by
  have hpad (row : Text) : closes fence (row ++ trail) = closes fence row :=
    closes_pad fence row (List.forall_mem_nil _) htrail
  rw [hpad] at h
  rw [← List.append_assoc, hpad]
  exact closes_lengthen h hlast n

/-- **The rows that close a block are those that its pattern matches.** Without the white space
around it, such a row is the fence followed by any number of copies of the character that the fence
ends with; for a fence of white space only, it is blank. A row closes a block or not whatever white
space is put around it, and one that does still does when its last character is repeated, also in
front of white space. -/
theorem closes_exactly (fence line : Text) :
    (closes fence line = true ↔ line ∈ closingRows fence) ∧
      (∀ last ∈ fence.trim.getLast?, (closes fence line = true ↔
        ∃ n, line.trim = fence.trim ++ List.replicate n last)) ∧
      (fence.trim = [] → (closes fence line = true ↔ ∀ c ∈ line, isWhiteSpace c = true)) ∧
      (∀ lead trail, (∀ c ∈ lead, isWhiteSpace c = true) → (∀ c ∈ trail, isWhiteSpace c = true) →
        closes fence (lead ++ (line ++ trail)) = closes fence line) ∧
      ∀ row trail last n, line = row ++ trail → (∀ c ∈ trail, isWhiteSpace c = true) →
        last ∈ row.getLast? → closes fence line = true →
          closes fence (row ++ (List.replicate n last ++ trail)) = true := by
  refine ⟨closes_iff_mem, fun last hlast => closes_iff_replicate hlast, closes_iff_blank,
    fun lead trail => closes_pad fence line, fun row trail last n hline htrail hlast h => ?_⟩
  rw [hline] at h
  exact closes_lengthen_pad h htrail hlast n

/-- Regular expression marks in a fence stand for themselves, and the fence may end in any character
but white space. -/
example : closes "-->".toList "\u2003-->>> ".toList = true ∧
    closes " .* ".toList ".***".toList = true ∧ closes "a+*".toList "aa*".toList = false := by
  decide +kernel

end RmdOptions.Fence
