import RmdOptions.Proofs.Text.LineEnding

/-!
# The line breaks of a file

A line of a file ends with a line feed, a carriage return, or the two as a pair. Whatever the line
ends with, it is loaded with a line feed and saved with the ending of the whole file. So a file is
saved as it was if all of its lines ended alike, and not with a carriage return alone.

* `Text.Piece`, `Text.CutInto` — a text cut at its line breaks, each as long as it can be;
* `Text.cutInto_iff` — there is one way to cut a text;
* `Text.Piece.brokenBy`, `Document.saved_load` — what is saved: the same pieces, with other breaks;
* `Document.load_saved_iff` — **which files are saved as they were**.
-/

namespace RmdOptions

namespace Text

/-! ## Pieces -/

/-- A piece of a text that is cut at its line breaks. -/
inductive Piece where
  /-- a character that belongs to no line break -/
  | other (c : Char) (ne : c ≠ '\r' ∧ c ≠ '\n')
  /-- a line feed by itself -/
  | feed
  /-- a carriage return by itself -/
  | carriage
  /-- a carriage return and a line feed as one break -/
  | pair

namespace Piece

/-- The characters of a piece. -/
def text : Piece → Text
  | other c _ => [c]
  | feed => ['\n']
  | carriage => ['\r']
  | pair => ['\r', '\n']

/-- The piece for one character that is looked at by itself. -/
def ofChar (c : Char) : Piece :=
  if hreturn : c = '\r' then carriage
  else if hfeed : c = '\n' then feed
  else other c ⟨hreturn, hfeed⟩

/-- The piece with another line break, if it is one; other characters stay. -/
def brokenBy : Piece → Piece → Piece
  | other c ne, _ => other c ne
  | _, line => line

theorem text_ofChar (c : Char) : (ofChar c).text = [c] := by
  rw [ofChar]
  split
  · next hreturn => rw [hreturn, text]
  · split
    · next hfeed => rw [hfeed, text]
    · rfl

/-- No piece starts with a line feed but the line feed by itself. -/
theorem head?_text_append_eq_feed_iff (p : Piece) (t : Text) :
    (p.text ++ t).head? = some '\n' ↔ p = feed := by
  cases p with
  | other c ne => simp [text, ne.2]
  | feed => simp [text]
  | carriage => simp [text]
  | pair => simp [text]

/-- No piece stops with a carriage return but that by itself. -/
theorem getLast?_append_text_eq_return_iff (p : Piece) (t : Text) :
    (t ++ p.text).getLast? = some '\r' ↔ p = carriage := by
  cases p with
  | other c ne => simp [text, ne.1]
  | feed => simp [text]
  | carriage => simp [text]
  | pair => simp [text]

end Piece

/-- A text is cut into pieces. The line breaks among these are as long as they can be: a carriage
return and a line feed behind it are one break. -/
structure CutInto (t : Text) (ps : List Piece) : Prop where
  /-- the pieces, put together, are the text -/
  text_eq : ps.flatMap Piece.text = t
  /-- no carriage return by itself is directly followed by a line feed by itself -/
  apart : ¬ [Piece.carriage, Piece.feed] <:+: ps

/-- The pieces of a text, found from its start on. -/
def pieces : Text → List Piece
  | '\r' :: '\n' :: rest => .pair :: pieces rest
  | c :: rest => .ofChar c :: pieces rest
  | [] => []

variable {t : Text} {p : Piece} {ps : List Piece}

theorem apart_cons_iff :
    ¬ [Piece.carriage, Piece.feed] <:+: p :: ps ↔
      ¬ (p = .carriage ∧ ps.head? = some .feed) ∧ ¬ [Piece.carriage, Piece.feed] <:+: ps := by
  have hprefix : [Piece.carriage, Piece.feed] <+: p :: ps ↔
      p = .carriage ∧ ps.head? = some .feed := by
    rw [List.cons_prefix_cons]
    cases ps with
    | nil => simp
    | cons q ps => simp [List.cons_prefix_cons, eq_comm]
  rw [List.infix_cons_iff, not_or, hprefix]

/-- Only a line feed by itself starts a text with a line feed. -/
theorem head?_flatMap_eq_feed_iff :
    (ps.flatMap Piece.text).head? = some '\n' ↔ ps.head? = some .feed := by
  cases ps with
  | nil => simp
  | cons p ps =>
    rw [List.flatMap_cons, Piece.head?_text_append_eq_feed_iff, List.head?_cons, Option.some_inj]

/-- Only a carriage return by itself ends a text with a carriage return. -/
theorem getLast?_flatMap_eq_return_iff :
    (ps.flatMap Piece.text).getLast? = some '\r' ↔ ps.getLast? = some .carriage := by
  rcases List.eq_nil_or_concat ps with rfl | ⟨front, p, rfl⟩
  · simp
  · rw [List.concat_eq_append, List.flatMap_append, List.flatMap_singleton,
      Piece.getLast?_append_text_eq_return_iff, List.getLast?_concat, Option.some_inj]

theorem pieces_cons {c : Char} {rest : Text} (h : ¬ (c = '\r' ∧ rest.head? = some '\n')) :
    pieces (c :: rest) = .ofChar c :: pieces rest := by
  rw [pieces]
  rintro more rfl rfl
  exact h ⟨rfl, rfl⟩

/-- Pieces that are put together are found again. -/
theorem pieces_flatMap (h : ¬ [Piece.carriage, Piece.feed] <:+: ps) :
    pieces (ps.flatMap Piece.text) = ps := by
  induction ps with
  | nil => rfl
  | cons p ps ih =>
    rw [apart_cons_iff] at h
    obtain ⟨hfirst, hrest⟩ := h
    rw [List.flatMap_cons]
    cases p with
    | other c ne =>
      rw [Piece.text, List.singleton_append, pieces_cons fun hc => ne.1 hc.1, ih hrest,
        Piece.ofChar, dif_neg ne.1, dif_neg ne.2]
    | feed =>
      rw [Piece.text, List.singleton_append, pieces_cons (by simp), ih hrest]
      rfl
    | carriage =>
      have hhead : ¬ ('\r' = '\r' ∧ (ps.flatMap Piece.text).head? = some '\n') := by
        rw [head?_flatMap_eq_feed_iff]
        exact fun hc => hfirst ⟨rfl, hc.2⟩
      rw [Piece.text, List.singleton_append, pieces_cons hhead, ih hrest]
      rfl
    | pair => rw [Piece.text, List.cons_append, List.singleton_append, pieces, ih hrest]

/-- A text is cut into its pieces. -/
theorem cutInto_pieces (t : Text) : t.CutInto t.pieces := by
  fun_induction pieces t with
  | case1 rest ih =>
    refine ⟨by rw [List.flatMap_cons, ih.text_eq]; rfl, ?_⟩
    rw [apart_cons_iff]
    exact ⟨fun hc => Piece.noConfusion hc.1, ih.apart⟩
  | case2 c rest hpair ih =>
    refine ⟨by rw [List.flatMap_cons, ih.text_eq, Piece.text_ofChar]; rfl, ?_⟩
    rw [apart_cons_iff]
    refine ⟨fun hc => ?_, ih.apart⟩
    -- the two would have been taken together
    have hreturn : c = '\r' := by
      have htext := congrArg Piece.text hc.1
      rw [Piece.text_ofChar] at htext
      exact (List.cons.inj htext).1
    have hfeed := head?_flatMap_eq_feed_iff.mpr hc.2
    rw [ih.text_eq] at hfeed
    obtain ⟨more, hmore⟩ := List.head?_eq_some_iff.mp hfeed
    exact hpair more hreturn hmore
  | case3 => exact ⟨rfl, by simp⟩

/-- **A text is cut into pieces in one way.** -/
theorem cutInto_iff : t.CutInto ps ↔ ps = t.pieces := by
  constructor
  · intro h
    rw [← h.text_eq, pieces_flatMap h.apart]
  · rintro rfl
    exact cutInto_pieces t

theorem hasPair_iff (t : Text) : t.hasPair = true ↔ ['\r', '\n'] <:+: t := by
  fun_induction hasPair t with
  | case1 rest => exact iff_of_true rfl ⟨[], rest, rfl⟩
  | case2 c rest hpair ih =>
    have hprefix : ¬ ['\r', '\n'] <+: c :: rest := by
      rintro ⟨more, hmore⟩
      obtain ⟨rfl, rfl⟩ := List.cons.inj hmore
      exact hpair more rfl rfl
    rw [List.infix_cons_iff, or_iff_right hprefix, ih]
  | case3 => simp

/-! ## Pieces with other breaks -/

namespace Piece

/-- A character that is looked at by itself is loaded as its piece with a line feed. -/
theorem text_brokenBy_ofChar (c : Char) :
    ((ofChar c).brokenBy feed).text = [if c = '\r' then '\n' else c] := by
  rw [ofChar]
  split
  · rfl
  · split
    · next hfeed =>
      subst hfeed
      rfl
    · rfl

end Piece

/-- Where all line breaks are replaced by one that is no carriage return, none of them come
together. -/
theorem apart_brokenBy {line : Piece} (h : line ≠ .carriage) (ps : List Piece) :
    ¬ [Piece.carriage, Piece.feed] <:+: ps.map (·.brokenBy line) := by
  intro htogether
  obtain ⟨p, -, hp⟩ := List.mem_map.mp (htogether.subset List.mem_cons_self)
  cases p with
  | other c ne => exact Piece.noConfusion hp
  | feed => exact h hp
  | carriage => exact h hp
  | pair => exact h hp

/-- A text is loaded with line feeds for its line breaks. -/
theorem withLineFeeds_eq (t : Text) :
    t.withLineFeeds = (t.pieces.map (·.brokenBy .feed)).flatMap Piece.text := by
  fun_induction withLineFeeds t with
  | case1 rest ih =>
    rw [pieces, List.map_cons, List.flatMap_cons, ← ih]
    rfl
  | case2 c rest hpair ih =>
    rw [pieces.eq_2 c rest hpair, List.map_cons, List.flatMap_cons, ← ih,
      Piece.text_brokenBy_ofChar]
    rfl
  | case3 => rfl

end Text

/-! ## What is saved -/

/-- The line break that is written for every line. -/
def LineEnding.piece : LineEnding → Text.Piece
  | lineFeed => .feed
  | pair => .pair

theorem LineEnding.piece_ne_carriage (ending : LineEnding) : ending.piece ≠ .carriage := by
  cases ending <;> exact Text.Piece.noConfusion

/-- A file is saved with pairs if it has one. -/
theorem LineEnding.piece_ofText (t : Text) :
    ((ofText t).piece = .pair ∧ ['\r', '\n'] <:+: t) ∨
      ((ofText t).piece = .feed ∧ ¬ ['\r', '\n'] <:+: t) := by
  rw [ofText, ← Text.hasPair_iff]
  by_cases hpair : t.hasPair = true
  · rw [if_pos hpair]
    exact Or.inl ⟨rfl, hpair⟩
  · rw [if_neg hpair]
    exact Or.inr ⟨rfl, hpair⟩

/-- Line feeds are written as the ending has it, and other characters as they are. -/
theorem LineEnding.write_flatMap (ending : LineEnding) (ps : List Text.Piece) :
    ending.write ((ps.map (·.brokenBy .feed)).flatMap Text.Piece.text) =
      (ps.map (·.brokenBy ending.piece)).flatMap Text.Piece.text := by
  cases ending with
  | lineFeed => rfl
  | pair =>
    induction ps with
    | nil => rfl
    | cons p ps ih =>
      rw [List.map_cons, List.map_cons, List.flatMap_cons, List.flatMap_cons, ← ih]
      cases p with
      | other c ne =>
        rw [Text.Piece.brokenBy, Text.Piece.brokenBy, Text.Piece.text, List.singleton_append,
          write_pair_cons, if_neg ne.2]
        rfl
      | feed => rfl
      | carriage => rfl
      | pair => rfl

/-- Where rows end with the pair, a line feed stands behind every carriage return. -/
theorem LineEnding.head?_of_write_pair {t before after : Text} (hreturn : '\r' ∉ t)
    (h : pair.write t = before ++ '\r' :: after) : after.head? = some '\n' := by
  induction t generalizing before with
  | nil => exact absurd h.symm (List.append_ne_nil_of_right_ne_nil before (List.cons_ne_nil _ _))
  | cons c t ih =>
    rw [List.mem_cons, not_or] at hreturn
    rw [write_pair_cons] at h
    split at h
    · rcases before with _ | ⟨first, _ | ⟨second, before⟩⟩
      · cases h
        rfl
      · cases h
      · simp only [List.cons_append, List.cons.injEq] at h
        exact ih hreturn.2 h.2.2
    · rcases before with _ | ⟨first, before⟩
      · exact absurd (List.cons.inj h).1.symm hreturn.1
      · exact ih hreturn.2 (List.cons.inj h).2

namespace Document

variable {t : Text}

/-- **A file is saved with its pieces, but the line breaks of one kind.** -/
theorem cutInto_saved (t : Text) :
    (load t).saved.CutInto (t.pieces.map (·.brokenBy (LineEnding.ofText t).piece)) where
  text_eq := by
    rw [saved, load, Text.withLineFeeds_eq, LineEnding.write_flatMap]
  apart := Text.apart_brokenBy (LineEnding.piece_ne_carriage _) _

/-- A file is saved as it was if its line breaks are of that kind. -/
theorem saved_eq_iff :
    (load t).saved = t ↔ ∀ p ∈ t.pieces, p.brokenBy (LineEnding.ofText t).piece = p := by
  have hcut := cutInto_saved t
  constructor
  · intro hsaved
    rw [hsaved, Text.cutInto_iff] at hcut
    exact List.map_inj_left.mp (hcut.trans (List.map_id _).symm)
  · intro hpieces
    rw [← hcut.text_eq, List.map_congr_left hpieces, List.map_id', (Text.cutInto_pieces t).text_eq]

theorem saved_eq_of_return_not_mem (h : '\r' ∉ t) : (load t).saved = t := by
  rw [saved, load, Text.withLineFeeds_of_not_mem h, LineEnding.ofText, Text.hasPair_eq_false h]
  rfl

/-- When a line feed stands behind every carriage return, and a carriage return before every line
feed, all line breaks are pairs. -/
theorem brokenBy_pair_of_mem
    (hfeed : ∀ before after, t = before ++ '\n' :: after → before.getLast? = some '\r')
    (hreturn : ∀ before after, t = before ++ '\r' :: after → after.head? = some '\n')
    {p : Text.Piece} (hp : p ∈ t.pieces) : p.brokenBy .pair = p := by
  obtain ⟨front, back, hsplit⟩ := List.append_of_mem hp
  obtain ⟨htext, hapart⟩ := Text.cutInto_pieces t
  rw [hsplit, List.flatMap_append, List.flatMap_cons] at htext
  rw [hsplit] at hapart
  cases p with
  | other c ne => rfl
  | feed =>
    -- the carriage return before it would belong to it
    have hlast := Text.getLast?_flatMap_eq_return_iff.mp (hfeed _ _ htext.symm)
    obtain ⟨front, rfl⟩ := List.getLast?_eq_some_iff.mp hlast
    exact absurd ⟨front, back, by simp⟩ hapart
  | carriage =>
    have hhead := Text.head?_flatMap_eq_feed_iff.mp (hreturn _ _ htext.symm)
    obtain ⟨back, rfl⟩ := List.head?_eq_some_iff.mp hhead
    exact absurd ⟨front, back, by simp⟩ hapart
  | pair => rfl

/-- **Which files are saved as they were.** A file that is loaded and saved stays the same exactly
when it has no carriage return, or when it has a pair and all of its line feeds and carriage returns
stand in pairs. Of any file, cut at the pairs, carriage returns and line feeds that end its lines,
all other characters stay, and each of these becomes one line break: the pair, if the file has one,
and the line feed otherwise. -/
theorem load_saved_iff (t : Text) :
    ((load t).saved = t ↔
        '\r' ∉ t ∨
          (['\r', '\n'] <:+: t ∧
            (∀ before after, t = before ++ '\n' :: after → before.getLast? = some '\r') ∧
            ∀ before after, t = before ++ '\r' :: after → after.head? = some '\n')) ∧
      (∀ ps, t.CutInto ps ↔ ps = t.pieces) ∧
      ∃ line : Text.Piece,
        ((line = .pair ∧ ['\r', '\n'] <:+: t) ∨ (line = .feed ∧ ¬ ['\r', '\n'] <:+: t)) ∧
          (load t).saved.CutInto (t.pieces.map (·.brokenBy line)) := by
  refine ⟨?_, fun ps => Text.cutInto_iff, _, LineEnding.piece_ofText t, cutInto_saved t⟩
  constructor
  · intro hsaved
    have hheld := Text.not_mem_withLineFeeds t
    rw [saved, load, LineEnding.ofText] at hsaved
    by_cases hpair : t.hasPair = true
    · rw [if_pos hpair] at hsaved
      refine Or.inr ⟨(Text.hasPair_iff t).mp hpair, fun before after hsplit => ?_,
        fun before after hsplit => ?_⟩
      · exact LineEnding.getLast?_of_write_pair (hsaved.trans hsplit)
      · exact LineEnding.head?_of_write_pair hheld (hsaved.trans hsplit)
    · rw [if_neg hpair] at hsaved
      have hsame : t.withLineFeeds = t := hsaved
      rw [hsame] at hheld
      exact Or.inl hheld
  · rintro (hreturn | ⟨hpair, hfeed, hreturn⟩)
    · exact saved_eq_of_return_not_mem hreturn
    · obtain ⟨hline, -⟩ := (LineEnding.piece_ofText t).resolve_right fun h => h.2 hpair
      rw [saved_eq_iff, hline]
      exact fun p hp => brokenBy_pair_of_mem hfeed hreturn hp

end Document

end RmdOptions
