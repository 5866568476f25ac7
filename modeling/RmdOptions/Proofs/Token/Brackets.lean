import Mathlib.Data.List.Infix
import RmdOptions.Proofs.Call.Search

/-!
# Brackets that belong together

From an opening bracket the cursor looks for the bracket that closes it, by counting how many of its
type are open. That bracket can be told without counting along: what stands between the two has as
many closing brackets as opening ones, and no more in any part that comes first.

* `HasToken`, `OpenBetween` — a certain token at an index, and indexes without a boundary between;
* `Balanced`, `ClosedAt`, `Cursor.closingOffset?_eq_some_iff_balanced` — balanced tokens, the index
  at which what is open gets closed, and that the search for a closing bracket finds it;
* `Matches`, `Matches.unique`, `closedBy?` — two brackets that belong together, the second of which
  is the only one, and finding it;
* `Cursor.toClosing`, `Cursor.toClosing_matches` — **the cursor moves to the bracket that closes the
  one it stands on, or not at all**.
-/

namespace RmdOptions

variable {tokens tokens' ts : List Token} {t : Token} {rest : List Token}
variable {opening closing : Text} {depth i j k n : Nat}

/-! ## Tokens at an index -/

/-- A certain token stands at an index. -/
def HasToken (ts : List Token) (i : Nat) (kind : TokenKind) (text : Text) : Prop :=
  ∃ t, ts[i]? = some t ∧ t.is kind text = true

instance (ts : List Token) (i : Nat) (kind : TokenKind) (text : Text) :
    Decidable (HasToken ts i kind text) :=
  decidable_of_iff (ts[i]?.any (·.is kind text) = true) (Option.any_eq_true _ _)

theorem hasToken_zero_iff {kind : TokenKind} {text : Text} :
    HasToken (t :: rest) 0 kind text ↔ t.is kind text = true := by
  simp [HasToken]

theorem hasToken_succ_iff {kind : TokenKind} {text : Text} :
    HasToken (t :: rest) (i + 1) kind text ↔ HasToken rest i kind text := by
  simp [HasToken]

theorem hasToken_drop_iff {kind : TokenKind} {text : Text} :
    HasToken (ts.drop n) i kind text ↔ HasToken ts (n + i) kind text := by
  rw [HasToken, HasToken, List.getElem?_drop]

/-- None of the tokens from one index up to another, that one included, ends the chunk. -/
def OpenBetween (ts : List Token) (i k : Nat) : Prop :=
  ∀ u ∈ (ts.take (k + 1)).drop i, u.isBoundary = false

instance (ts : List Token) (i k : Nat) : Decidable (OpenBetween ts i k) :=
  inferInstanceAs (Decidable (∀ u ∈ (ts.take (k + 1)).drop i, u.isBoundary = false))

theorem openBetween_drop_iff :
    OpenBetween (ts.drop n) i k ↔ OpenBetween ts (n + i) (n + k) := by
  rw [OpenBetween, OpenBetween, List.take_drop, List.drop_drop, Nat.add_assoc]

theorem OpenBetween.isBoundary (h : OpenBetween ts i k) {m : Nat} {u : Token} (him : i ≤ m)
    (hmk : m ≤ k) (hu : ts[m]? = some u) : u.isBoundary = false := by
  refine h u (List.mem_of_getElem? (i := m - i) ?_)
  rw [List.getElem?_drop, Nat.add_sub_cancel' him, List.getElem?_take_of_lt (by omega), hu]

theorem OpenBetween.mono (h : OpenBetween ts i k) {i' : Nat} (hi : i ≤ i') :
    OpenBetween ts i' k := by
  intro u hu
  obtain ⟨m, hm⟩ := Nat.exists_eq_add_of_le hi
  rw [hm, ← List.drop_drop] at hu
  exact h u (List.mem_of_mem_drop hu)

/-! ## Balanced tokens -/

/-- How many of some tokens are a certain bracket. -/
def countBracket (text : Text) (ts : List Token) : Nat := ts.countP (·.is .punctuation text)

@[simp] theorem countBracket_nil (text : Text) : countBracket text [] = 0 := rfl

theorem countBracket_cons (text : Text) (t : Token) (ts : List Token) :
    countBracket text (t :: ts) = countBracket text ts + countBracket text [t] := by
  simp [countBracket, List.countP_cons]

/-- Brackets of one type are closed in some tokens, `depth` of them having been opened before: from
the left, never more are closed than are open, and in the end all are. -/
structure Balanced (opening closing : Text) (depth : Nat) (ts : List Token) : Prop where
  /-- on the way, a bracket that is closed is open -/
  nested : ∀ front, front <+: ts → countBracket closing front ≤ depth + countBracket opening front
  /-- in the end, none is open -/
  closed : countBracket closing ts = depth + countBracket opening ts

/-- The first token changes how many brackets are open. -/
theorem balanced_cons_iff {depth' : Nat}
    (h : countBracket closing [t] + depth' = depth + countBracket opening [t]) :
    Balanced opening closing depth (t :: ts) ↔ Balanced opening closing depth' ts := by
  constructor
  · rintro ⟨hnested, hclosed⟩
    refine ⟨fun front hfront => ?_, ?_⟩
    · have := hnested (t :: front) (List.cons_prefix_cons.mpr ⟨rfl, hfront⟩)
      rw [countBracket_cons, countBracket_cons opening] at this
      omega
    · rw [countBracket_cons, countBracket_cons opening] at hclosed
      omega
  · rintro ⟨hnested, hclosed⟩
    refine ⟨fun front hfront => ?_, ?_⟩
    · rcases List.prefix_cons_iff.mp hfront with rfl | ⟨back, rfl, hback⟩
      · exact Nat.zero_le _
      · have := hnested back hback
        rw [countBracket_cons, countBracket_cons opening]
        omega
    · rw [countBracket_cons, countBracket_cons opening]
      omega

theorem balanced_nil_iff : Balanced opening closing depth [] ↔ depth = 0 := by
  constructor
  · intro h
    have := h.closed
    simp only [countBracket_nil] at this
    omega
  · rintro rfl
    refine ⟨fun front hfront => ?_, rfl⟩
    rw [List.prefix_nil.mp hfront]
    exact Nat.le_refl _

/-- The bracket that closes what is open stands at an index: the tokens before it balance, and none
of them ends the chunk. -/
def ClosedAt (opening closing : Text) (depth : Nat) (ts : List Token) (k : Nat) : Prop :=
  HasToken ts k .punctuation closing ∧ (∀ u ∈ ts.take k, u.isBoundary = false) ∧
    Balanced opening closing depth (ts.take k)

theorem closedAt_zero_iff :
    ClosedAt opening closing depth (t :: rest) 0 ↔
      t.is .punctuation closing = true ∧ depth = 0 := by
  rw [ClosedAt, hasToken_zero_iff, List.take_zero, balanced_nil_iff]
  simp

theorem closedAt_succ_iff {depth' : Nat}
    (hdepth : countBracket closing [t] + depth' = depth + countBracket opening [t]) :
    ClosedAt opening closing depth (t :: rest) (k + 1) ↔
      t.isBoundary = false ∧ ClosedAt opening closing depth' rest k := by
  rw [ClosedAt, ClosedAt, List.take_succ_cons, hasToken_succ_iff, List.forall_mem_cons,
    balanced_cons_iff hdepth]
  tauto

/-- A token that is not the bracket looked for is passed over. -/
theorem closedAt_cons_iff {depth' : Nat} {found : Option Nat} (hboundary : t.isBoundary = false)
    (hdepth : countBracket closing [t] + depth' = depth + countBracket opening [t])
    (hother : ¬(t.is .punctuation closing = true ∧ depth = 0))
    (ih : ∀ k, found = some k ↔ ClosedAt opening closing depth' rest k) :
    found.map (· + 1) = some k ↔ ClosedAt opening closing depth (t :: rest) k := by
  cases k with
  | zero =>
    rw [closedAt_zero_iff]
    refine iff_of_false (fun h => ?_) hother
    obtain ⟨_, -, hzero⟩ := Option.map_eq_some_iff.mp h
    cases hzero
  | succ k =>
    rw [closedAt_succ_iff hdepth, and_iff_right hboundary, ← ih]
    simp

/-- Behind the end of the chunk, nothing is looked for. -/
theorem not_closedAt_of_boundary (hboundary : t.isBoundary = true) :
    ¬ClosedAt opening closing depth (t :: rest) k := by
  rintro ⟨hclose, hopen, -⟩
  cases k with
  | zero =>
    have hkind := (Token.is_iff.mp (hasToken_zero_iff.mp hclose)).1
    simp [Token.isBoundary, hkind] at hboundary
  | succ k =>
    rw [List.take_succ_cons, List.forall_mem_cons, hboundary] at hopen
    exact absurd hopen.1 (by decide)

/-- **The search for a closing bracket finds the one that belongs there**: the tokens before it
balance, and none of them ends the chunk. -/
theorem Cursor.closingOffset?_eq_some_iff_balanced (hne : opening ≠ closing) :
    closingOffset? opening closing depth ts = some k ↔
      HasToken ts k .punctuation closing ∧ (∀ u ∈ ts.take k, u.isBoundary = false) ∧
        Balanced opening closing depth (ts.take k) := by
  change _ ↔ ClosedAt opening closing depth ts k
  induction ts generalizing depth k with
  | nil => simp [closingOffset?, ClosedAt, HasToken]
  | cons t rest ih =>
    rw [closingOffset?]
    by_cases hboundary : t.isBoundary = true
    · rw [if_pos hboundary]
      exact iff_of_false (by simp) (not_closedAt_of_boundary hboundary)
    rw [if_neg hboundary]
    have hboundary := Bool.eq_false_iff.mpr hboundary
    by_cases hopening : t.is .punctuation opening = true
    · have hclosing : t.is .punctuation closing = false := by
        simp [Token.is, (Token.is_iff.mp hopening).2, hne]
      rw [if_pos hopening]
      refine closedAt_cons_iff hboundary ?_ (by simp [hclosing]) fun k => ih
      simp [countBracket, hopening, hclosing]
    rw [if_neg hopening]
    by_cases hclosing : t.is .punctuation closing = true
    · rw [if_pos hclosing]
      cases depth with
      | zero =>
        rw [if_pos rfl]
        cases k with
        | zero => exact iff_of_true rfl (closedAt_zero_iff.mpr ⟨hclosing, rfl⟩)
        | succ k =>
          -- nothing is open that the first token could close
          refine iff_of_false (by simp) fun h => ?_
          have := h.2.2.nested [t] (by simp)
          simp [countBracket, hopening, hclosing] at this
      | succ depth =>
        rw [if_neg (Nat.succ_ne_zero depth)]
        refine closedAt_cons_iff hboundary ?_ (by simp) fun k => ih
        simp [countBracket, hopening, hclosing, Nat.add_comm]
    · rw [if_neg hclosing]
      refine closedAt_cons_iff hboundary ?_ (by simp [hclosing]) fun k => ih
      simp [countBracket, hopening, hclosing]

/-! ## Two brackets -/

/-- The bracket at index `i` is closed by the one at index `k`: they are of one type, the chunk does
not end on the way, and what stands between them balances. -/
inductive Matches (tokens : List Token) (i k : Nat) : Prop where
  /-- the parts of the condition, for a bracket and the text of the one that closes it -/
  | intro {bracket : Token} {closing : Text} (hbracket : tokens[i]? = some bracket)
    (hcloser : bracket.closer? = some closing) (hlt : i < k)
    (hclose : HasToken tokens k .punctuation closing) (hopen : OpenBetween tokens (i + 1) k)
    (hinside : Balanced bracket.text closing 0 ((tokens.take k).drop (i + 1))) :
    Matches tokens i k

/-- A bracket is closed by another one. -/
theorem Token.text_ne_of_closer? (h : t.closer? = some closing) : t.text ≠ closing := by
  rw [closer?] at h
  split at h
  · split at h
    · next htext => cases h; rw [htext]; decide
    · next htext => cases h; rw [htext]; decide
    · next htext => cases h; rw [htext]; decide
    · cases h
  · cases h

/-- In terms of the tokens behind a bracket, the one that closes it is found by counting. -/
theorem matches_iff {bracket : Token} (hbracket : tokens[i]? = some bracket)
    (hcloser : bracket.closer? = some closing) :
    Matches tokens i k ↔ ∃ n, k = i + 1 + n ∧
      Cursor.closingOffset? bracket.text closing 0 (tokens.drop (i + 1)) = some n := by
  have hne := Token.text_ne_of_closer? hcloser
  -- the closing bracket itself ends no chunk
  have hopen (n : Nat) (hclose : HasToken tokens (i + 1 + n) .punctuation closing) :
      OpenBetween tokens (i + 1) (i + 1 + n) ↔
        ∀ u ∈ (tokens.drop (i + 1)).take n, u.isBoundary = false := by
    obtain ⟨close, hget, hclose⟩ := hclose
    have hlast : (tokens.take (i + 1 + n + 1)).drop (i + 1) =
        (tokens.drop (i + 1)).take n ++ [close] := by
      rw [← List.getElem?_drop] at hget
      rw [Nat.add_assoc (i + 1), ← List.take_drop, List.take_add_one, hget]
      rfl
    have hboundary := Token.isBoundary_of_is hclose (by decide)
    rw [OpenBetween, hlast]
    refine ⟨fun h u hu => h u (List.mem_append_left _ hu), fun h u hu => ?_⟩
    rcases List.mem_append.mp hu with hu | hu
    · exact h u hu
    · rw [List.mem_singleton.mp hu, hboundary]
  constructor
  · rintro ⟨hbracket', hcloser', hlt, hclose, hopen', hinside⟩
    obtain rfl := Option.some.inj (hbracket.symm.trans hbracket')
    obtain rfl := Option.some.inj (hcloser.symm.trans hcloser')
    obtain ⟨n, rfl⟩ := Nat.exists_eq_add_of_le hlt
    refine ⟨n, rfl, (Cursor.closingOffset?_eq_some_iff_balanced hne).mpr
      ⟨hasToken_drop_iff.mpr hclose, (hopen n hclose).mp hopen', ?_⟩⟩
    rwa [List.take_drop]
  · rintro ⟨n, rfl, hoffset⟩
    obtain ⟨hclose, hopen', hinside⟩ := (Cursor.closingOffset?_eq_some_iff_balanced hne).mp hoffset
    rw [hasToken_drop_iff] at hclose
    rw [List.take_drop] at hinside
    exact ⟨hbracket, hcloser, by omega, hclose, (hopen n hclose).mpr hopen', hinside⟩

/-- A bracket is closed by one other only. -/
theorem Matches.unique {k' : Nat} (h : Matches tokens i k) (h' : Matches tokens i k') : k' = k := by
  obtain ⟨hbracket, hcloser, -, -, -, -⟩ := id h
  obtain ⟨n, rfl, hn⟩ := (matches_iff hbracket hcloser).mp h
  obtain ⟨n', rfl, hn'⟩ := (matches_iff hbracket hcloser).mp h'
  rw [hn] at hn'
  rw [Option.some.inj hn']

theorem Matches.lt (h : Matches tokens i k) : i < k := by
  obtain ⟨-, -, hlt, -, -, -⟩ := h
  exact hlt

theorem Matches.lt_length (h : Matches tokens i k) : k < tokens.length := by
  obtain ⟨-, -, -, ⟨close, hclose, -⟩, -, -⟩ := h
  exact (List.getElem?_eq_some_iff.mp hclose).1

/-- The index of the bracket that closes the one at an index. -/
def closedBy? (tokens : List Token) (i : Nat) : Option Nat :=
  tokens[i]?.bind fun bracket => bracket.closer?.bind fun closing =>
    (Cursor.closingOffset? bracket.text closing 0 (tokens.drop (i + 1))).map (i + 1 + ·)

theorem closedBy?_eq_some_iff : closedBy? tokens i = some k ↔ Matches tokens i k := by
  rw [closedBy?]
  cases hbracket : tokens[i]? with
  | none =>
    refine iff_of_false (by simp) ?_
    rintro ⟨hbracket', -, -, -, -, -⟩
    rw [hbracket] at hbracket'
    cases hbracket'
  | some bracket =>
    rw [Option.bind_some]
    cases hcloser : bracket.closer? with
    | none =>
      refine iff_of_false (by simp) ?_
      rintro ⟨hbracket', hcloser', -, -, -, -⟩
      obtain rfl := Option.some.inj (hbracket.symm.trans hbracket')
      rw [hcloser] at hcloser'
      cases hcloser'
    | some closing =>
      rw [Option.bind_some, matches_iff hbracket hcloser, Option.map_eq_some_iff]
      exact exists_congr fun n => ⟨fun h => ⟨h.2.symm, h.1⟩, fun h => ⟨h.2, h.1.symm⟩⟩

instance (tokens : List Token) (i k : Nat) : Decidable (Matches tokens i k) :=
  decidable_of_iff (closedBy? tokens i = some k) closedBy?_eq_some_iff

/-! ## The cursor -/

namespace Cursor

variable {c : Cursor tokens}

/-- The cursor on the bracket that closes the one it stands on, or where it is, and whether there
is such a bracket. -/
def toClosing (c : Cursor tokens) : Bool × Cursor tokens := (c.closing?.isSome, c.closing?.getD c)

/-- What a cursor stands on is the token at its index. -/
theorem index?_eq_some_iff : c.index? = some i ↔ c.place = i + 1 ∧ i < tokens.length := by
  rw [index?]
  split
  · rw [Option.some.injEq]
    omega
  · simp only [reduceCtorEq, false_iff]
    omega

/-- There is a cursor on every token. -/
theorem exists_index?_eq (h : i < tokens.length) : ∃ c : Cursor tokens, c.index? = some i :=
  ⟨⟨i + 1, by omega⟩, index?_eq_some_iff.mpr ⟨rfl, h⟩⟩

theorem current?_eq_of_index? (h : c.index? = some i) : c.current? = tokens[i]? := by
  rw [current?, (index?_eq_some_iff.mp h).1]

/-- The cursor moves from a bracket to the one that closes it. -/
theorem closing?_eq_some_iff {d : Cursor tokens} :
    c.closing? = some d ↔ ∃ i k, c.index? = some i ∧ d.index? = some k ∧ Matches tokens i k := by
  constructor
  · intro h
    cases hcurrent : c.current? with
    | none => simp [closing?, hcurrent] at h
    | some bracket =>
      cases hcloser : bracket.closer? with
      | none => simp [closing?, hcurrent, hcloser] at h
      | some closing =>
        obtain ⟨i, hplace, hi, hbracket, -⟩ := drop_of_current? hcurrent
        have hoffset := closing?_place hcurrent hcloser
        rw [h, Option.map_some, hplace, eq_comm, Option.map_eq_some_iff] at hoffset
        obtain ⟨n, hn, hd⟩ := hoffset
        have hlt := closingOffset?_lt hn
        rw [List.length_drop] at hlt
        exact ⟨i, i + 1 + n, index?_eq_some_iff.mpr ⟨hplace, hi⟩,
          index?_eq_some_iff.mpr ⟨hd.symm, by omega⟩,
          (matches_iff hbracket hcloser).mpr ⟨n, rfl, hn⟩⟩
  · rintro ⟨i, k, hi, hk, hmatches⟩
    obtain ⟨hbracket, hcloser, -, -, -, -⟩ := id hmatches
    obtain ⟨n, rfl, hn⟩ := (matches_iff hbracket hcloser).mp hmatches
    have hoffset := closing?_place ((current?_eq_of_index? hi).trans hbracket) hcloser
    rw [(index?_eq_some_iff.mp hi).1, hn, Option.map_some, Option.map_eq_some_iff] at hoffset
    obtain ⟨d', hd', hplace⟩ := hoffset
    have hplace' := (index?_eq_some_iff.mp hk).1
    obtain rfl : d' = d := ext_place (by omega)
    exact hd'

/-- Two tokens count alike for a bracket: as ends of the chunk, and as brackets of its type. -/
structure CountsAs (bracket a b : Token) : Prop where
  /-- both are boundaries, or neither is -/
  boundary : a.isBoundary = b.isBoundary
  /-- both open a bracket of the type, or neither does -/
  opening : a.is .punctuation bracket.text = b.is .punctuation bracket.text
  /-- both close one, or neither does -/
  closing : ∀ closing, bracket.closer? = some closing →
    a.is .punctuation closing = b.is .punctuation closing

/-- Nothing else counts in the search. -/
theorem closingOffset?_eq_of_countsAs {bracket : Token} (hcloser : bracket.closer? = some closing)
    {us : List Token} (h : List.Forall₂ (CountsAs bracket) ts us) :
    closingOffset? bracket.text closing depth ts =
      closingOffset? bracket.text closing depth us := by
  induction h generalizing depth with
  | nil => rfl
  | cons hab _ ih =>
    rw [closingOffset?, closingOffset?, hab.boundary, hab.opening, hab.closing _ hcloser, ih, ih,
      ih]

/-- So tokens that count alike make no difference to where the cursor moves. -/
theorem closing?_place_congr {c' : Cursor tokens'} (hplace : c'.place = c.place)
    (hcurrent : c'.current? = c.current?)
    (h : ∀ bracket ∈ c.current?, List.Forall₂ (CountsAs bracket) (tokens.drop c.place)
      (tokens'.drop c'.place)) :
    c'.closing?.map (·.place) = c.closing?.map (·.place) := by
  cases hbracket : c.current? with
  | none =>
    rw [hbracket] at hcurrent
    rw [closing?, closing?, hcurrent, hbracket]
    rfl
  | some bracket =>
    rw [hbracket] at hcurrent
    cases hcloser : bracket.closer? with
    | none => simp [closing?, hcurrent, hbracket, hcloser]
    | some closing =>
      rw [closing?_place hcurrent hcloser, closing?_place hbracket hcloser,
        closingOffset?_eq_of_countsAs hcloser (h bracket hbracket), hplace]

/-- **The cursor moves to the bracket that closes the one it stands on, or not at all.** It moves
exactly when it stands on an opening bracket that another one closes; then it stands on that one,
which is the only one, and otherwise it stays where it is. Tokens ahead that are no boundaries or
brackets of the type may be exchanged for others that are none. -/
theorem toClosing_matches (c : Cursor tokens) :
    (c.toClosing.1 = true ↔ ∃ i k, c.index? = some i ∧ Matches tokens i k) ∧
      (c.toClosing.1 = true → ∃ i k, c.index? = some i ∧ c.toClosing.2.index? = some k ∧
        Matches tokens i k ∧ ∀ k', Matches tokens i k' → k' = k) ∧
      (c.toClosing.1 = false → c.toClosing.2 = c) ∧
      ∀ (tokens' : List Token) (c' : Cursor tokens'), c'.place = c.place →
        c'.current? = c.current? →
        (∀ bracket ∈ c.current?, List.Forall₂ (CountsAs bracket) (tokens.drop c.place)
          (tokens'.drop c'.place)) →
        c'.toClosing.1 = c.toClosing.1 ∧ c'.toClosing.2.place = c.toClosing.2.place := by
  refine ⟨?_, fun h => ?_, fun h => ?_, fun tokens' c' hplace hcurrent hcounts => ?_⟩
  · rw [toClosing, Option.isSome_iff_exists]
    constructor
    · rintro ⟨d, hd⟩
      obtain ⟨i, k, hi, -, hmatches⟩ := closing?_eq_some_iff.mp hd
      exact ⟨i, k, hi, hmatches⟩
    · rintro ⟨i, k, hi, hmatches⟩
      obtain ⟨d, hd⟩ := exists_index?_eq hmatches.lt_length
      exact ⟨d, closing?_eq_some_iff.mpr ⟨i, k, hi, hd, hmatches⟩⟩
  · obtain ⟨d, hd⟩ := Option.isSome_iff_exists.mp h
    obtain ⟨i, k, hi, hk, hmatches⟩ := closing?_eq_some_iff.mp hd
    refine ⟨i, k, hi, ?_, hmatches, fun k' hmatches' => hmatches.unique hmatches'⟩
    rw [toClosing, hd]
    exact hk
  · rw [toClosing, Option.isSome_eq_false_iff, Option.isNone_iff_eq_none] at h
    rw [toClosing, h]
    rfl
  · have hsame := closing?_place_congr hplace hcurrent hcounts
    rw [toClosing, toClosing]
    cases hclosing : c.closing? with
    | none =>
      rw [hclosing, Option.map_none, Option.map_eq_none_iff] at hsame
      rw [hsame]
      exact ⟨rfl, hplace⟩
    | some d =>
      rw [hclosing, Option.map_some, Option.map_eq_some_iff] at hsame
      obtain ⟨d', hd', hd⟩ := hsame
      rw [hd']
      exact ⟨rfl, hd⟩

end Cursor

end RmdOptions
