import Mathlib.Logic.ExistsUnique
import RmdOptions.Proofs.Text.Between
import RmdOptions.Proofs.Token.Layout

/-!
# What the tokens of a text account for

Reading loses nothing and invents nothing. Seen as a document or as code, by any choice of rules and
any closing fence, a text is tiled by its tokens: they follow one another, only white space stands
between them, and each holds the text between its two places. One kind of token holds less than
that. A string that the closing fence of its chunk cuts off stops where the fence row starts, but
the line feed in front of that row is not part of its text.

* `Accounts` — what the tokens of a text say about it;
* `Tiles`, `Tiles.accounts` — tokens from one place of a text to another, one after the other, and
  what they account for;
* `Extends` — what is read in front of some tokens, which needs to know about these only where they
  start;
* `lexCode_extends`, `lexLine_extends`, `Region.read_extends` — code, a line of it, and a line of a
  document;
* `Lexer.tokens_account` — **the tokens of a text account for it**.
-/

namespace RmdOptions

open Text (Reads)

variable {lexer : Lexer} {rules : List Rule} {t : Text} {row column : Nat} {line : Text}
variable {p q r : Position} {tokens later : List Token} {token : Token}

/-! ## Accounts -/

/-- Whether a token is a string that the token behind it cuts off: that is the closing fence of the
chunk, and starts where the string stops. -/
def Token.CutOff (token : Token) (next : Option Token) : Prop :=
  token.kind = .string ∧ ∃ fence ∈ next, fence.kind = .chunkEnd ∧ fence.start = token.stop

/-- Tokens account for a text: they stand in it one after the other, hold what is written there, and
leave only white space out. -/
structure Accounts (t : Text) (tokens : List Token) : Prop where
  /-- a token starts and stops at places of the text, and stops no earlier than it starts -/
  places : ∀ token ∈ tokens,
    t.HasPlace token.start ∧ t.HasPlace token.stop ∧ token.start ≤ token.stop
  /-- each token starts behind the start of those before it -/
  start_lt_start : tokens.Pairwise fun token later => token.start < later.start
  /-- each token starts no earlier than those before it stop -/
  stop_le_start : tokens.Pairwise fun token later => token.stop ≤ later.start
  /-- a token holds what stands between its places -/
  between_eq : ∀ (i : Nat) (token : Token), tokens[i]? = some token →
    ¬ token.CutOff tokens[i + 1]? → t.between token.start token.stop = token.text
  /-- a string that is cut off misses the line feed at its end -/
  between_cutOff : ∀ (i : Nat) (token : Token), tokens[i]? = some token →
    token.CutOff tokens[i + 1]? → t.between token.start token.stop = token.text ++ ['\n']
  /-- each character but white space is in exactly one token -/
  exists_unique : ∀ place c, t.charAt? place = some c → isWhiteSpace c = false →
    ∃! token, token ∈ tokens ∧ token.start ≤ place ∧ place < token.stop

/-! ## Tilings -/

/-- The text from one place to another is white space. -/
structure Blank (t : Text) (p q : Position) : Prop where
  /-- what stands there holds no other character -/
  exists_reads : ∃ gap, Reads t p gap q ∧ ∀ c ∈ gap, isWhiteSpace c = true

theorem Blank.refl (hp : t.HasPlace p) : Blank t p p :=
  ⟨[], Reads.refl hp, fun _ hc => absurd hc List.not_mem_nil⟩

theorem Blank.trans (h : Blank t p q) (h' : Blank t q r) : Blank t p r := by
  obtain ⟨gap, hreads, hwhite⟩ := h.exists_reads
  obtain ⟨gap', hreads', hwhite'⟩ := h'.exists_reads
  refine ⟨gap ++ gap', hreads.trans hreads', fun c hc => ?_⟩
  rcases List.mem_append.mp hc with hc | hc
  · exact hwhite c hc
  · exact hwhite' c hc

theorem Blank.le (h : Blank t p q) : p ≤ q := by
  obtain ⟨gap, hreads, -⟩ := h.exists_reads
  exact hreads.le

/-- Some tokens tile the text from one place to another. What may follow a token is part of its
case: behind a token that stops at the start of a row nothing does, and a fence row is the last of
its row. -/
inductive Tiles (t : Text) : Position → List Token → Position → Prop
  /-- nothing but white space is left -/
  | nil {p q : Position} (hgap : Blank t p q) : Tiles t p [] q
  /-- a token that is there with all of its text -/
  | token {p q : Position} {token : Token} {later : List Token} (hgap : Blank t p token.start)
      (hreads : Reads t token.start token.text token.stop) (hne : token.text ≠ [])
      (hkind : token.kind ≠ .chunkEnd) (hlast : token.stop.column = 0 → later = [])
      (hlater : Tiles t token.stop later q) : Tiles t p (token :: later) q
  /-- a row that closes a chunk, which may be empty -/
  | fence {p q : Position} {row : Nat} {line : Text} {later : List Token}
      (hgap : Blank t p ⟨row, 0⟩) (hreads : Reads t ⟨row, 0⟩ line ⟨row, line.length⟩)
      (hbelow : ∀ u ∈ later, row < u.start.row)
      (hlater : Tiles t ⟨row, line.length⟩ later q) :
      Tiles t p (wholeLine .chunkEnd row line :: later) q
  /-- a string that the row behind it cuts off -/
  | cutOff {p q : Position} {token : Token} {row : Nat} {line : Text} {later : List Token}
      (hgap : Blank t p token.start) (hkind : token.kind = .string) (hstop : token.stop = ⟨row, 0⟩)
      (hreads : Reads t token.start (token.text ++ ['\n']) token.stop)
      (hlater : Tiles t token.stop (wholeLine .chunkEnd row line :: later) q) :
      Tiles t p (token :: wholeLine .chunkEnd row line :: later) q

namespace Tiles

/-- White space in front of a tiling. -/
theorem gap (h : Tiles t q tokens r) (hgap : Blank t p q) : Tiles t p tokens r := by
  cases h with
  | nil hgap' => exact .nil (hgap.trans hgap')
  | token hgap' hreads hne hkind hlast hlater =>
    exact .token (hgap.trans hgap') hreads hne hkind hlast hlater
  | fence hgap' hreads hbelow hlater => exact .fence (hgap.trans hgap') hreads hbelow hlater
  | cutOff hgap' hkind hstop hreads hlater =>
    exact .cutOff (hgap.trans hgap') hkind hstop hreads hlater

/-! ### What a tiling says about its tokens -/

/-- Behind white space comes the first token, with some text between its places, and behind it the
others. -/
theorem of_cons (h : Tiles t p (token :: later) q) : Blank t p token.start ∧
    (∃ text, Reads t token.start text token.stop) ∧ Tiles t token.stop later q := by
  cases h with
  | token hgap hreads _ _ _ hlater => exact ⟨hgap, ⟨_, hreads⟩, hlater⟩
  | fence hgap hreads _ hlater => exact ⟨hgap, ⟨_, hreads⟩, hlater⟩
  | cutOff hgap _ _ hreads hlater => exact ⟨hgap, ⟨_, hreads⟩, hlater⟩

/-- No token of a tiling starts before the tiling does. -/
theorem le_start (h : Tiles t p tokens q) : ∀ token ∈ tokens, p ≤ token.start := by
  induction tokens generalizing p with
  | nil => exact fun _ htoken => absurd htoken List.not_mem_nil
  | cons token later ih =>
    obtain ⟨hgap, ⟨_, hreads⟩, hlater⟩ := h.of_cons
    intro u hu
    rcases List.mem_cons.mp hu with rfl | hu
    · exact hgap.le
    · exact Position.le_trans (Position.le_trans hgap.le hreads.le) (ih hlater u hu)

theorem places (h : Tiles t p tokens q) : ∀ token ∈ tokens,
    t.HasPlace token.start ∧ t.HasPlace token.stop ∧ token.start ≤ token.stop := by
  induction tokens generalizing p with
  | nil => exact fun _ htoken => absurd htoken List.not_mem_nil
  | cons token later ih =>
    obtain ⟨-, ⟨_, hreads⟩, hlater⟩ := h.of_cons
    exact List.forall_mem_cons.mpr ⟨⟨hreads.start, hreads.stop, hreads.le⟩, ih hlater⟩

theorem stop_le_start (h : Tiles t p tokens q) :
    tokens.Pairwise fun token later => token.stop ≤ later.start := by
  induction tokens generalizing p with
  | nil => exact List.Pairwise.nil
  | cons token later ih =>
    obtain ⟨-, -, hlater⟩ := h.of_cons
    exact List.pairwise_cons.mpr ⟨hlater.le_start, ih hlater⟩

theorem start_lt_start (h : Tiles t p tokens q) :
    tokens.Pairwise fun token later => token.start < later.start := by
  have hbehind {token u : Token} {text : Text} (hreads : Reads t token.start text token.stop)
      (hne : text ≠ []) (hle : token.stop ≤ u.start) : token.start < u.start := by
    have hlt := hreads.lt hne
    rw [Position.lt_def] at hlt ⊢
    rw [Position.le_def] at hle
    omega
  induction h with
  | nil => exact List.Pairwise.nil
  | token _ hreads hne _ _ hlater ih =>
    exact List.pairwise_cons.mpr ⟨fun u hu => hbehind hreads hne (hlater.le_start u hu), ih⟩
  | fence _ _ hbelow _ ih =>
    -- the row may be empty, so only the row of what follows tells
    exact List.pairwise_cons.mpr ⟨fun u hu => Or.inl (hbelow u hu), ih⟩
  | cutOff _ _ _ hreads hlater ih =>
    refine List.pairwise_cons.mpr ⟨fun u hu => ?_, ih⟩
    exact hbehind hreads (by simp) (hlater.le_start u hu)

/-- A closing fence at the start of a tiling starts its row. -/
theorem column_of_chunkEnd {fence : Token} (h : Tiles t p (fence :: later) q)
    (hkind : fence.kind = .chunkEnd) : fence.start.column = 0 := by
  cases h with
  | token _ _ _ hother => exact absurd hkind hother
  | fence => rfl
  | cutOff _ hstring =>
    rw [hstring] at hkind
    cases hkind

/-- What a token holds of the text, depending on the token behind it. -/
theorem between (h : Tiles t p tokens q) : ∀ (i : Nat) (token : Token), tokens[i]? = some token →
    (¬ token.CutOff tokens[i + 1]? → t.between token.start token.stop = token.text) ∧
      (token.CutOff tokens[i + 1]? → t.between token.start token.stop = token.text ++ ['\n']) := by
  induction h with
  | nil => exact fun i token htoken => absurd htoken (by simp)
  | @token p q token later _ hreads _ _ hlast hlater ih =>
    intro i u hu
    cases i with
    | succ i => exact ih i u hu
    | zero =>
      obtain rfl : token = u := Option.some.inj hu
      refine ⟨fun _ => hreads.between_eq, fun hcut => ?_⟩
      -- a fence behind this token would start in the first column, where nothing follows
      obtain ⟨-, fence, hfence, hkind, hstart⟩ := hcut
      cases later with
      | nil => cases hfence
      | cons next later =>
        obtain rfl : next = fence := Option.some.inj hfence
        have hcolumn := hlater.column_of_chunkEnd hkind
        rw [hstart] at hcolumn
        cases hlast hcolumn
  | fence _ hreads _ _ ih =>
    intro i u hu
    cases i with
    | succ i => exact ih i u hu
    | zero =>
      obtain rfl := Option.some.inj hu
      refine ⟨fun _ => hreads.between_eq, fun hcut => ?_⟩
      obtain ⟨hkind, -⟩ := hcut
      cases hkind
  | @cutOff p q token row line later _ hkind hstop hreads _ ih =>
    intro i u hu
    cases i with
    | succ i => exact ih i u hu
    | zero =>
      obtain rfl : token = u := Option.some.inj hu
      refine ⟨fun hcut => absurd ⟨hkind, _, rfl, rfl, hstop.symm⟩ hcut, fun _ => ?_⟩
      exact hreads.between_eq

/-- Between the ends of a tiling, each character but white space is in one of its tokens. -/
theorem exists_token (h : Tiles t p tokens q) {place : Position} {c : Char}
    (hc : t.charAt? place = some c) (hvisible : isWhiteSpace c = false) (hle : p ≤ place)
    (hlt : place < q) : ∃ token ∈ tokens, token.start ≤ place ∧ place < token.stop := by
  -- the character is not in the white space in front of a token
  have hgaps {p r : Position} (hgap : Blank t p r) (hle : p ≤ place) : r ≤ place := by
    refine Classical.byContradiction fun hnot => ?_
    obtain ⟨gap, hreads, hwhite⟩ := hgap.exists_reads
    have hmem := hreads.mem_of_charAt? hc hle (Position.lt_iff_not_le.mpr hnot)
    rw [hwhite c hmem] at hvisible
    cases hvisible
  induction tokens generalizing p with
  | nil =>
    cases h with
    | nil hgap => exact absurd (hgaps hgap hle) (Position.lt_iff_not_le.mp hlt)
  | cons token later ih =>
    -- it is in the first token, or in one of those behind
    obtain ⟨hgap, -, hlater⟩ := h.of_cons
    by_cases hstop : token.stop ≤ place
    · obtain ⟨u, hu, hinside⟩ := ih hlater hstop
      exact ⟨u, List.mem_cons_of_mem _ hu, hinside⟩
    · exact ⟨token, List.mem_cons_self, hgaps hgap hle, Position.lt_iff_not_le.mpr hstop⟩

/-- Only one token of a tiling is at a place. -/
theorem eq_of_place (h : Tiles t p tokens q) (r : Position) :
    ∀ token ∈ tokens, ∀ u ∈ tokens, token.start ≤ r ∧ r < token.stop →
      u.start ≤ r ∧ r < u.stop → token = u := by
  have hapart {token u : Token} (hle : token.stop ≤ u.start) (hat : r < token.stop)
      (hat' : u.start ≤ r) : False :=
    Position.lt_iff_not_le.mp hat (Position.le_trans hle hat')
  apply List.Pairwise.forall_of_forall_of_flip
  · exact fun _ _ _ _ => rfl
  · exact h.stop_le_start.imp fun hle hat hat' => (hapart hle hat.2 hat'.1).elim
  · exact h.stop_le_start.imp fun hle hat hat' => (hapart hle hat'.2 hat.1).elim

end Tiles

/-! ### Tilings of all of a text -/

theorem le_lastPlace (row : Nat) (ls : List Text) : row ≤ (lastPlace row ls).row := by
  fun_induction lastPlace row ls with
  | case1 => exact Nat.le_refl _
  | case2 => exact Nat.le_refl _
  | case3 row line next more ih => exact Nat.le_of_succ_le ih

/-- Each character of some lines is in front of their end. -/
theorem lt_lastPlace {ls : List Text} {i : Nat} (hline : ls[i]? = some line)
    (hcolumn : column < line.length) : (⟨row + i, column⟩ : Position) < lastPlace row ls := by
  fun_induction lastPlace row ls generalizing i with
  | case1 => cases hline
  | case2 row last =>
    cases i with
    | succ i => cases hline
    | zero =>
      obtain rfl : last = line := Option.some.inj hline
      exact Or.inr ⟨rfl, hcolumn⟩
  | case3 row first next more ih =>
    cases i with
    | zero => exact Or.inl (le_lastPlace (row + 1) (next :: more))
    | succ i =>
      have hrest := ih hline
      rwa [Nat.add_assoc, Nat.add_comm 1 i] at hrest

/-- **Tokens that tile a text account for it.** -/
theorem Tiles.accounts (h : Tiles t ⟨0, 0⟩ tokens (lastPlace 0 t.lines)) : Accounts t tokens where
  places := h.places
  start_lt_start := h.start_lt_start
  stop_le_start := h.stop_le_start
  between_eq i token htoken := (h.between i token htoken).1
  between_cutOff i token htoken := (h.between i token htoken).2
  exists_unique := by
    rintro ⟨row, column⟩ c hc hvisible
    obtain ⟨own, hown, hchar⟩ := Text.exists_of_charAt? hc
    have hfrom : (⟨0, 0⟩ : Position) ≤ ⟨row, column⟩ := by
      rw [Position.le_def]
      dsimp only
      omega
    have hto : (⟨0 + row, column⟩ : Position) < lastPlace 0 t.lines :=
      lt_lastPlace hown (List.getElem?_eq_some_iff.mp hchar).1
    rw [Nat.zero_add] at hto
    obtain ⟨token, htoken, hat⟩ := h.exists_token hc hvisible hfrom hto
    refine ⟨token, ⟨htoken, hat⟩, ?_⟩
    rintro u ⟨hu, hat'⟩
    exact h.eq_of_place _ u hu token htoken hat' hat

/-! ## Reading on

What is read of a line, or of the rest of one, is put in front of the tokens behind it. These start
on a later row, unless they go on with a string that the line leaves open. -/

/-- Where the tokens behind some code start: at the quote of the string that it leaves open, or else
no earlier than at a place. -/
def resume (left : Option OpenString) (p : Position) : Position := (left.map (·.start)).getD p

@[simp] theorem resume_none (p : Position) : resume none p = p := rfl

@[simp] theorem resume_some (s : OpenString) (p : Position) : resume (some s) p = s.start := rfl

/-- What has been read of an open string stands in the text from its quote up to a place, where
`feed` is what the place has of the line feed that was read last. -/
def OpenString.ReadTo (t feed : Text) (p : Position) (s : OpenString) : Prop :=
  ∃ written, written ≠ [] ∧ s.text = written ++ ['\n'] ∧ Reads t s.start (written ++ feed) p

/-- A reading of the text from `p` to the end of the row of `q` extends tilings: with its tokens in
front, those of what follows tile the text from `p` on. -/
structure Extends (t : Text) (p : Position) (r : Reading) (q : Position) : Prop where
  /-- a string that is left open has been read up to there -/
  left : ∀ s ∈ r.2, s.ReadTo t [] q
  /-- what is read comes in front -/
  tiles : ∀ (later : List Token) (stop : Position),
    (r.2 = none → ∀ u ∈ later, q.row < u.start.row) → Tiles t (resume r.2 q) later stop →
      Tiles t p (r.1 ++ later) stop

/-- A string that is left open has been read up to the start of the next row. -/
theorem Extends.left_next {r : Reading} (h : Extends t p r ⟨row, line.length⟩)
    (hline : t.lines[row]? = some line) (hnext : row + 1 < t.lines.length) :
    ∀ s ∈ r.2, s.ReadTo t ['\n'] ⟨row + 1, 0⟩ := by
  intro s hs
  obtain ⟨written, hne, htext, hreads⟩ := h.left s hs
  rw [List.append_nil] at hreads
  exact ⟨written, hne, htext, hreads.trans (Text.reads_feed hline hnext)⟩

/-- In front of the tokens of the rows below. -/
theorem Extends.tiles_next {r : Reading} (h : Extends t p r ⟨row, line.length⟩)
    (hline : t.lines[row]? = some line) (hnext : row + 1 < t.lines.length)
    (hlater : Tiles t (resume r.2 ⟨row + 1, 0⟩) later q) : Tiles t p (r.1 ++ later) q := by
  apply h.tiles
  · intro hnone u hu
    rw [hnone, resume_none] at hlater
    have hle := hlater.le_start u hu
    rw [Position.le_def] at hle
    dsimp only at hle ⊢
    omega
  · cases hleft : r.2 with
    | none =>
      rw [hleft, resume_none] at hlater
      have hfeed : ∀ c ∈ ['\n'], isWhiteSpace c = true := by decide
      exact hlater.gap ⟨['\n'], Text.reads_feed hline hnext, hfeed⟩
    | some s =>
      rw [hleft, resume_some] at hlater
      exact hlater

/-- On the last row, where a string that is left open ends with the text. -/
theorem Extends.tiles_last {r : Reading} (h : Extends t p r q) (hq : t.HasPlace q) :
    Tiles t p (r.1 ++ abandoned r.2 q) q := by
  cases hleft : r.2 with
  | none =>
    apply h.tiles
    · exact fun _ _ hu => absurd hu List.not_mem_nil
    · rw [hleft]
      exact .nil (.refl hq)
  | some s =>
    apply h.tiles
    · rw [hleft]
      exact fun hnone => absurd hnone (by simp)
    · obtain ⟨written, hne, htext, hreads⟩ := h.left s hleft
      rw [List.append_nil] at hreads
      have hsingle : abandoned (some s) q = [⟨.string, written, s.start, q⟩] := by
        rw [← OpenString.abandon_eq htext]
        rfl
      rw [hleft, resume_some, hsingle]
      exact .token (.refl hreads.start) hreads hne (by rintro ⟨⟩) (fun _ => rfl) (.nil (.refl hq))

/-! ### Code -/

/-- Code that is read from a column of a line on. -/
theorem lexCode_extends (rules : List Rule) (hline : t.lines[row]? = some line) {tail : Text}
    (hcolumn : column ≤ line.length) (htail : line.drop column = tail) :
    Extends t ⟨row, column⟩ (lexCode rules row column tail) ⟨row, line.length⟩ := by
  -- the first characters of the tail, and what is left of it behind them
  have hfirst {column n : Nat} {tail : Text} (hcolumn : column ≤ line.length)
      (htail : line.drop column = tail) (hn : n ≤ tail.length) :
      column + n ≤ line.length ∧ line.drop (column + n) = tail.drop n ∧
        Reads t ⟨row, column⟩ (tail.take n) ⟨row, column + n⟩ := by
    have hlength := congrArg List.length htail
    rw [List.length_drop] at hlength
    have hle : column + n ≤ line.length := by omega
    refine ⟨hle, ?_, ?_⟩
    · rw [← htail, List.drop_drop]
    · rw [← htail]
      exact Text.reads_line hline hle
  induction column, tail using lex_induction rules with
  | nil column =>
    rw [lexCode_nil]
    have hend : column = line.length :=
      Nat.le_antisymm hcolumn (List.drop_eq_nil_iff.mp htail)
    rw [hend]
    exact ⟨fun s hs => absurd hs (by simp), fun later stop _ hlater => hlater⟩
  | white column c rest hc ih =>
    obtain ⟨hle, hdrop, hreads⟩ := hfirst (n := 1) hcolumn htail (by simp)
    obtain ⟨hleft, htiles⟩ := ih hle hdrop
    have hgap : Blank t ⟨row, column⟩ ⟨row, column + 1⟩ := ⟨[c], hreads, by simpa using hc⟩
    rw [lexCode_white hc]
    exact ⟨hleft, fun later stop hbelow hlater => (htiles later stop hbelow hlater).gap hgap⟩
  | opened column c rest hc hopen =>
    rw [lexCode_open hc hopen]
    refine ⟨?_, fun later stop _ hlater => hlater⟩
    rintro s ⟨rfl⟩
    refine ⟨c :: rest, List.cons_ne_nil _ _, rfl, ?_⟩
    rw [List.append_nil, ← htail]
    exact Text.reads_drop hline hcolumn
  | token column c rest kind n hc hlexeme ih =>
    obtain ⟨hpos, hn⟩ := lexeme?_bounds hlexeme
    obtain ⟨hle, hdrop, hreads⟩ := hfirst hcolumn htail hn
    obtain ⟨hleft, htiles⟩ := ih hle hdrop
    rw [lexCode_token hc hlexeme]
    refine ⟨hleft, fun later stop hbelow hlater => ?_⟩
    have hrest := htiles later stop hbelow hlater
    have hne : (c :: rest).take n ≠ [] := by
      intro hnil
      have hlength := congrArg List.length hnil
      rw [List.length_take_of_le hn, List.length_nil] at hlength
      omega
    refine .token (.refl hreads.start) hreads hne (kind_of_lexeme? hlexeme).1.2 ?_ hrest
    intro hstop
    dsimp only at hstop
    omega

/-- A line of code, which may begin inside a string. -/
theorem lexLine_extends (rules : List Rule) {pending : Option OpenString}
    (hline : t.lines[row]? = some line) (hpending : ∀ s ∈ pending, s.ReadTo t ['\n'] ⟨row, 0⟩) :
    Extends t (resume pending ⟨row, 0⟩) (lexLine rules pending row line) ⟨row, line.length⟩ := by
  cases pending with
  | none => exact lexCode_extends rules hline (Nat.zero_le _) List.drop_zero
  | some s =>
    obtain ⟨written, hne, htext, hreads⟩ := hpending s rfl
    rw [← htext] at hreads
    rw [lexLine]
    dsimp only
    cases hquote : closingQuote? s.quote line with
    | none =>
      refine ⟨?_, fun later stop _ hlater => hlater⟩
      rintro s' ⟨rfl⟩
      refine ⟨s.text ++ line, ?_, rfl, ?_⟩
      · rw [htext]
        simp
      · rw [List.append_nil]
        exact hreads.trans (Text.reads_all hline)
    | some n =>
      obtain ⟨hpos, hn⟩ := closingQuote?_bounds hquote
      obtain ⟨hleft, htiles⟩ := lexCode_extends rules hline hn rfl
      refine ⟨hleft, fun later stop hbelow hlater => ?_⟩
      have hrest := htiles later stop hbelow hlater
      have hclosed := hreads.trans (Text.reads_take hline hn)
      refine .token (.refl hreads.start) hclosed ?_ (by rintro ⟨⟩) ?_ hrest
      · rw [htext]
        simp
      · intro hstop
        dsimp only at hstop
        omega

/-- The first of the lines from one on, and those behind it. -/
theorem getElem?_of_drop {ls more : List Text} (h : ls.drop row = line :: more) :
    ls[row]? = some line ∧ ls.drop (row + 1) = more := by
  constructor
  · rw [← List.head?_drop, h, List.head?_cons]
  · rw [← List.tail_drop, h, List.tail_cons]

theorem lt_length_of_drop {ls more : List Text} (h : ls.drop row = line :: more) :
    row < ls.length :=
  (List.getElem?_eq_some_iff.mp (getElem?_of_drop h).1).1

/-- Lines of code up to the end of the text. -/
theorem Lexer.codeLines_tiles (lexer : Lexer) {pending : Option OpenString} {ls : List Text}
    (hls : t.lines.drop row = ls) (hne : ls ≠ [])
    (hpending : ∀ s ∈ pending, s.ReadTo t ['\n'] ⟨row, 0⟩) :
    Tiles t (resume pending ⟨row, 0⟩) (lexer.codeLines pending row ls) (lastPlace row ls) := by
  induction ls generalizing pending row with
  | nil => exact absurd rfl hne
  | cons line more ih =>
    obtain ⟨hline, hmore⟩ := getElem?_of_drop hls
    have hextends := lexLine_extends lexer.rules hline hpending
    cases more with
    | nil => exact hextends.tiles_last ⟨line, hline, Nat.le_refl _⟩
    | cons next more =>
      have hnext := lt_length_of_drop hmore
      have hrest := ih hmore (List.cons_ne_nil _ _) (hextends.left_next hline hnext)
      exact hextends.tiles_next hline hnext hrest

/-! ### Documents -/

/-- A line outside the chunks. -/
theorem proseTokens_tiles (hline : t.lines[row]? = some line)
    (hlater : Tiles t ⟨row, line.length⟩ later q) :
    Tiles t ⟨row, 0⟩ (proseTokens row line ++ later) q := by
  obtain ⟨trail, hsplit, htrail⟩ := line.exists_eq_trim
  generalize hlead : line.takeWhile isWhiteSpace = lead at hsplit
  have hwhite : ∀ c ∈ lead, isWhiteSpace c = true := by
    rw [← hlead]
    exact fun c hc => List.mem_takeWhile_imp hc
  -- the three parts of the line
  have hparts : t.lines[row]? = some (lead ++ (line.trim ++ trail)) := by rw [hline, ← hsplit]
  have hfirst : Reads t ⟨row, 0⟩ lead ⟨row, lead.length⟩ := by
    have hreads := Text.reads_take hparts (n := lead.length) (by simp)
    rwa [List.take_left] at hreads
  have hsecond := Text.reads_part hparts
  have hthird : Reads t ⟨row, lead.length + line.trim.length⟩ trail ⟨row, line.length⟩ := by
    rw [← List.append_assoc] at hparts hsplit
    have hcolumn : (lead ++ line.trim).length ≤ (lead ++ line.trim ++ trail).length := by simp
    have hreads := Text.reads_drop hparts hcolumn
    rwa [List.drop_left, ← hsplit, List.length_append] at hreads
  have hrest : Tiles t ⟨row, lead.length + line.trim.length⟩ later q :=
    hlater.gap ⟨trail, hthird, htrail⟩
  rw [proseTokens]
  split
  · next hempty =>
    rw [List.isEmpty_iff] at hempty
    rw [hempty, List.length_nil, Nat.add_zero] at hrest
    exact hrest.gap ⟨lead, hfirst, hwhite⟩
  · next hne =>
    rw [List.isEmpty_iff] at hne
    dsimp only
    rw [hlead]
    refine .token ⟨lead, hfirst, hwhite⟩ hsecond hne (by rintro ⟨⟩) ?_ hrest
    intro hstop
    have hpos := List.length_pos_iff.mpr hne
    dsimp only at hstop
    omega

namespace Region

/-- The string that is open in a region. -/
def pending : Region → Option OpenString
  | .chunk pending => pending
  | _ => none

theorem leave_eq (region : Region) (stop : Position) :
    region.leave stop = abandoned region.pending stop := by
  cases region with
  | prose => rfl
  | block => rfl
  | chunk pending => exact leave_chunk pending stop

/-- A line of a document. -/
theorem read_extends (lexer : Lexer) (region : Region) (hline : t.lines[row]? = some line)
    (hpending : ∀ s ∈ region.pending, s.ReadTo t ['\n'] ⟨row, 0⟩) :
    Extends t (resume region.pending ⟨row, 0⟩)
      ((region.read lexer row line).1, (region.read lexer row line).2.pending)
      ⟨row, line.length⟩ := by
  have hall := Text.reads_all hline
  have hprose : Extends t ⟨row, 0⟩ (proseTokens row line, none) ⟨row, line.length⟩ :=
    ⟨fun s hs => absurd hs (by simp), fun later stop _ hlater => proseTokens_tiles hline hlater⟩
  cases region with
  | prose =>
    rw [read]
    split
    · next hopens =>
      refine ⟨fun s hs => absurd hs (by simp [pending]), fun later stop _ hlater => ?_⟩
      have hne : line ≠ [] := by
        rintro rfl
        exact absurd hopens (by decide)
      refine .token (.refl hall.start) hall hne (by rintro ⟨⟩) ?_ hlater
      intro hstop
      exact absurd (List.length_eq_zero_iff.mp hstop) hne
    · split
      · exact hprose
      · exact hprose
  | block =>
    rw [read]
    split
    · exact hprose
    · exact hprose
  | chunk pending =>
    rw [read]
    split
    · refine ⟨fun s hs => absurd hs (by simp [Region.pending]), fun later stop hbelow hlater => ?_⟩
      have hfence : Tiles t ⟨row, 0⟩ (wholeLine .chunkEnd row line :: later) stop :=
        .fence (.refl hall.start) hall (hbelow rfl) hlater
      rw [leave_chunk]
      cases pending with
      | none => exact hfence
      | some s =>
        -- the line feed in front of the fence is all that its token misses
        obtain ⟨written, hne, htext, hreads⟩ := hpending s rfl
        have hsingle : abandoned (some s) ⟨row, 0⟩ = [⟨.string, written, s.start, ⟨row, 0⟩⟩] := by
          rw [← OpenString.abandon_eq htext]
          rfl
        rw [hsingle]
        exact .cutOff (.refl hreads.start) rfl rfl hreads hfence
    · exact lexLine_extends lexer.rules hline hpending

end Region

namespace Lexer

/-- Lines of a document up to the end of the text. -/
theorem documentLines_tiles (lexer : Lexer) {region : Region} {ls : List Text}
    (hls : t.lines.drop row = ls) (hne : ls ≠ [])
    (hpending : ∀ s ∈ region.pending, s.ReadTo t ['\n'] ⟨row, 0⟩) :
    Tiles t (resume region.pending ⟨row, 0⟩) (lexer.documentLines region row ls)
      (lastPlace row ls) := by
  induction ls generalizing region row with
  | nil => exact absurd rfl hne
  | cons line more ih =>
    obtain ⟨hline, hmore⟩ := getElem?_of_drop hls
    have hextends := Region.read_extends lexer region hline hpending
    cases more with
    | nil =>
      have htiles := hextends.tiles_last ⟨line, hline, Nat.le_refl _⟩
      dsimp only at htiles
      rw [← Region.leave_eq] at htiles
      exact htiles
    | cons next more =>
      have hnext := lt_length_of_drop hmore
      have hrest := ih hmore (List.cons_ne_nil _ _) (hextends.left_next hline hnext)
      exact hextends.tiles_next hline hnext hrest

/-- **The tokens of a document tile it.** -/
theorem documentTokens_tiles (lexer : Lexer) (t : Text) :
    Tiles t ⟨0, 0⟩ (lexer.documentTokens t) (lastPlace 0 t.lines) := by
  have hpending : ∀ s ∈ Region.prose.pending, s.ReadTo t ['\n'] ⟨0, 0⟩ := by
    intro s hs
    cases hs
  exact lexer.documentLines_tiles List.drop_zero (Text.lines_ne_nil t) hpending

/-- **The tokens of a text that is all code tile it.** -/
theorem codeTokens_tiles (lexer : Lexer) (t : Text) :
    Tiles t ⟨0, 0⟩ (lexer.codeTokens t) (lastPlace 0 t.lines) := by
  have hpending : ∀ s ∈ (none : Option OpenString), s.ReadTo t ['\n'] ⟨0, 0⟩ := by
    intro s hs
    cases hs
  exact lexer.codeLines_tiles List.drop_zero (Text.lines_ne_nil t) hpending

/-- **Reading loses and invents nothing.** Whatever rules there are, in whatever order, and whatever
fence closes a chunk, the tokens of a document and those of a text that is all code account for it.
In code no fence cuts a string off, so each token holds all that stands between its places. -/
theorem tokens_account (lexer : Lexer) (t : Text) :
    Accounts t (lexer.documentTokens t) ∧ Accounts t (lexer.codeTokens t) ∧
      ∀ token ∈ lexer.codeTokens t, t.between token.start token.stop = token.text := by
  have hcode := (lexer.codeTokens_tiles t).accounts
  refine ⟨(lexer.documentTokens_tiles t).accounts, hcode, ?_⟩
  intro token htoken
  obtain ⟨i, hi⟩ := List.getElem?_of_mem htoken
  apply hcode.between_eq i token hi
  rintro ⟨-, fence, hfence, hkind, -⟩
  have hmem : fence ∈ lexer.codeTokens t := List.mem_of_getElem? hfence
  rw [lexer.codeTokens_eq, List.mem_append] at hmem
  rcases hmem with hmem | hmem
  · exact (lexLines_isCode none t.lines fence hmem).2 hkind
  · exact (isCode_of_mem_abandoned hmem).2 hkind

/-- The fence cuts the string off, so the line feed before it is not part of the token. -/
example :
    let t : Text := "\x60\x60\x60\x7br\x7d\n\x22a\n\x60\x60\x60".toList
    let lexer : Lexer := closedBy ['\x60', '\x60', '\x60']
    (lexer.documentTokens t)[1]? = some ⟨.string, ['\x22', 'a'], ⟨1, 0⟩, ⟨2, 0⟩⟩ ∧
      t.between ⟨1, 0⟩ ⟨2, 0⟩ = ['\x22', 'a', '\n'] := by
  decide +kernel

end Lexer

end RmdOptions
