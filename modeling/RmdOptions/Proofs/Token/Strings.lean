import RmdOptions.Proofs.Token.Inside
import RmdOptions.Proofs.Token.Stretch
import RmdOptions.Proofs.Token.Tiling

/-!
# Strings over several lines

Code is read line by line, and a string that its line does not close is looked for on the next. What
comes of that is what one would find in the whole text: behind the opening quote, backslashes each
take one character along, line feeds too, and the string ends with the first quote that none of them
takes along, or with the text.

* `escapes`, `ClosesAt` — escaped characters and the closing quote, said for a whole text;
* `closingQuote?_eq_some_iff`, `closingQuote?_eq_none_iff` — within a line it is found by looking
  for it;
* `Lexer.codeTokens_reads` — a token of code is there with all of its text;
* `Lexer.string_of_mem_codeTokens` — **a string token ends at the closing quote**, or with the text.
-/

namespace RmdOptions

variable {quote c : Char} {t : Text} {n : Nat}

/-! ## Escaped characters -/

/-- Whether the character behind a text is taken along by a backslash at its end. A backslash that
is itself taken along takes nothing. -/
def escapes (t : Text) : Bool := t.foldl (fun escaped c => !escaped && c == '\\') false

/-- The first quote that no backslash takes along stands behind `n` characters. -/
structure ClosesAt (quote : Char) (t : Text) (n : Nat) : Prop where
  /-- there is a quote -/
  quote_eq : t[n]? = some quote
  /-- no backslash takes it along -/
  unescaped : escapes (t.take n) = false
  /-- those before it are taken along -/
  escaped : ∀ m < n, t[m]? = some quote → escapes (t.take m) = true

theorem escapes_cons (hc : c ≠ '\\') (t : Text) : escapes (c :: t) = escapes t := by
  have hstart : (c == '\\') = false := beq_eq_false_iff_ne.mpr hc
  simp [escapes, hstart]

theorem escapes_pair (c : Char) (t : Text) : escapes ('\\' :: c :: t) = escapes t := by
  simp [escapes]

namespace ClosesAt

variable {u rest : Text}

theorem not_nil : ¬ ClosesAt quote [] n := by
  intro h
  cases h.quote_eq

/-- A quote at the start is the first. -/
theorem cons_quote_iff : ClosesAt quote (quote :: rest) n ↔ n = 0 := by
  constructor
  · intro h
    refine Nat.eq_zero_of_not_pos fun hpos => ?_
    cases h.escaped 0 hpos rfl
  · rintro rfl
    exact ⟨rfl, rfl, fun m hm => absurd hm (Nat.not_lt_zero m)⟩

/-- A start that takes nothing along and does not close the string is passed over. -/
theorem append_iff (hpass : ∀ s, escapes (u ++ s) = escapes s)
    (hopen : ∀ m, u[m]? = some quote → escapes (u.take m) = true) :
    ClosesAt quote (u ++ rest) n ↔ ∃ m, n = u.length + m ∧ ClosesAt quote rest m := by
  have htake (m : Nat) : escapes ((u ++ rest).take (u.length + m)) = escapes (rest.take m) := by
    rw [List.take_length_add_append, hpass]
  have hget (m : Nat) : (u ++ rest)[u.length + m]? = rest[m]? := by
    rw [List.getElem?_append_right (Nat.le_add_right _ _), Nat.add_sub_cancel_left]
  have hfront {m : Nat} (hm : m < u.length) (hquote : (u ++ rest)[m]? = some quote) :
      escapes ((u ++ rest).take m) = true := by
    rw [List.getElem?_append_left hm] at hquote
    rw [List.take_append_of_le_length (Nat.le_of_lt hm)]
    exact hopen m hquote
  constructor
  · intro h
    have hle : u.length ≤ n := by
      refine Nat.le_of_not_lt fun hlt => ?_
      have hescaped := hfront hlt h.quote_eq
      rw [h.unescaped] at hescaped
      cases hescaped
    obtain ⟨m, rfl⟩ := Nat.exists_eq_add_of_le hle
    refine ⟨m, rfl, ?_, ?_, fun k hk hquote => ?_⟩
    · rw [← hget]
      exact h.quote_eq
    · rw [← htake]
      exact h.unescaped
    · rw [← htake]
      exact h.escaped (u.length + k) (Nat.add_lt_add_left hk _) (by rwa [hget])
  · rintro ⟨m, rfl, h⟩
    refine ⟨?_, ?_, fun k hk hquote => ?_⟩
    · rw [hget]
      exact h.quote_eq
    · rw [htake]
      exact h.unescaped
    · rcases Nat.lt_or_ge k u.length with hlt | hge
      · exact hfront hlt hquote
      · obtain ⟨i, rfl⟩ := Nat.exists_eq_add_of_le hge
        rw [hget] at hquote
        rw [htake]
        exact h.escaped i (Nat.lt_of_add_lt_add_left hk) hquote

/-- A character that takes nothing along is passed over, unless it closes the string. -/
theorem cons_iff (hc : c ≠ '\\') (hne : c ≠ quote) :
    ClosesAt quote (c :: rest) n ↔ ∃ m, n = 1 + m ∧ ClosesAt quote rest m := by
  refine append_iff (u := [c]) (escapes_cons hc) fun m hquote => ?_
  obtain ⟨rfl, heq⟩ : m = 0 ∧ c = quote := by simpa [List.getElem?_singleton] using hquote
  exact absurd heq hne

/-- A backslash and what it takes along are passed over. -/
theorem pair_iff (hquote : quote ≠ '\\') :
    ClosesAt quote ('\\' :: c :: rest) n ↔ ∃ m, n = 2 + m ∧ ClosesAt quote rest m := by
  refine append_iff (u := ['\\', c]) (escapes_pair c) fun m hm => ?_
  match m with
  | 0 => exact absurd (Option.some.inj hm).symm hquote
  | 1 => rfl
  | m + 2 => cases hm

end ClosesAt

/-- The closing quote itself is counted. -/
theorem exists_eq_succ_of_closingQuote? {k : Nat} (h : closingQuote? quote t = some k) :
    ∃ m, k = m + 1 :=
  Nat.exists_eq_add_of_le' (closingQuote?_bounds h).1

/-- What is found behind some characters is found that much further on. -/
theorem map_closingQuote?_eq_some_iff {k : Nat} :
    (closingQuote? quote t).map (· + k) = some (n + 1) ↔
      ∃ m, n = k + m ∧ closingQuote? quote t = some (m + 1) := by
  rw [Option.map_eq_some_iff]
  constructor
  · rintro ⟨i, hi, heq⟩
    obtain ⟨m, rfl⟩ := exists_eq_succ_of_closingQuote? hi
    exact ⟨m, by omega, hi⟩
  · rintro ⟨m, rfl, hm⟩
    exact ⟨m + 1, hm, by omega⟩

/-- Looking for the closing quote finds it. -/
theorem closingQuote?_eq_some_iff (hquote : quote ≠ '\\') :
    closingQuote? quote t = some (n + 1) ↔ ClosesAt quote t n := by
  fun_induction closingQuote? quote t generalizing n with
  | case1 =>
    refine iff_of_false ?_ ClosesAt.not_nil
    intro h
    cases h
  | case2 =>
    refine iff_of_false ?_ ?_
    · intro h
      cases h
    · -- the backslash is all there is, and no quote
      intro h
      cases n with
      | zero => exact hquote (Option.some.inj h.quote_eq).symm
      | succ n => cases h.quote_eq
  | case3 c rest ih =>
    rw [ClosesAt.pair_iff hquote, map_closingQuote?_eq_some_iff]
    simp only [ih]
  | case4 rest hlast hpair =>
    rw [ClosesAt.cons_quote_iff, Option.some_inj]
    omega
  | case5 c rest hlast hpair hc ih =>
    rw [ClosesAt.cons_iff (Rule.ne_backslash hlast hpair) hc, map_closingQuote?_eq_some_iff]
    simp only [ih]

theorem closingQuote?_eq_none_iff (hquote : quote ≠ '\\') :
    closingQuote? quote t = none ↔ ∀ n, ¬ ClosesAt quote t n := by
  constructor
  · intro h n hn
    rw [← closingQuote?_eq_some_iff hquote, h] at hn
    cases hn
  · intro h
    cases hfind : closingQuote? quote t with
    | none => rfl
    | some k =>
      obtain ⟨n, rfl⟩ := exists_eq_succ_of_closingQuote? hfind
      exact absurd ((closingQuote?_eq_some_iff hquote).mp hfind) (h n)

/-! ## Tokens of code

What a token holds is what stands between its places. -/

/-- Where no fence is, each token is there with all of its text. -/
theorem Tiles.reads {p q : Position} {tokens : List Token} (h : Tiles t p tokens q)
    (hfence : ∀ token ∈ tokens, token.kind ≠ .chunkEnd) :
    ∀ token ∈ tokens, Text.Reads t token.start token.text token.stop := by
  induction h with
  | nil => exact fun token htoken => absurd htoken List.not_mem_nil
  | token _ hreads _ _ _ _ ih =>
    exact List.forall_mem_cons.mpr
      ⟨hreads, ih fun u hu => hfence u (List.mem_cons_of_mem _ hu)⟩
  | fence => exact absurd rfl (hfence _ List.mem_cons_self)
  | cutOff => exact absurd rfl (hfence _ (List.mem_cons_of_mem _ List.mem_cons_self))

/-- The last place has the whole text before it. -/
theorem Text.upTo_lastPlace (t : Text) : t.upTo (lastPlace 0 t.lines) = t := by
  obtain ⟨above, last, hlines⟩ := t.exists_lines_eq_concat
  have hlast : t.lines[above.length]? = some last := by
    rw [hlines, List.getElem?_concat_length]
  have hplace : lastPlace 0 t.lines = ⟨above.length, last.length⟩ := endPlace_eq hlines
  have hsplit := eq_upTo_append hlast last.length
  rw [List.drop_length, hlines, List.drop_eq_nil_of_le (by simp), ofLines_singleton,
    List.append_nil] at hsplit
  rw [hplace]
  exact hsplit.symm

namespace Lexer

theorem codeTokens_reads (lexer : Lexer) (t : Text) :
    ∀ token ∈ lexer.codeTokens t, Text.Reads t token.start token.text token.stop := by
  refine (lexer.codeTokens_tiles t).reads fun token htoken => ?_
  rw [lexer.codeTokens_eq, List.mem_append] at htoken
  rcases htoken with htoken | htoken
  · exact (lexLines_isCode none t.lines token htoken).2
  · exact (isCode_of_mem_abandoned htoken).2

/-- **A string token ends at the closing quote.** Whatever rules there are, in whatever order, a
string token of a code text is there with all of its text. Behind the place where it starts stand a
quote and the rest of the text, over all its lines. If a quote in this rest closes the string, the
token goes up to it; otherwise it is all that is left, and ends where the last line does. -/
theorem string_of_mem_codeTokens (lexer : Lexer) {t : Text} {token : Token}
    (htoken : token ∈ lexer.codeTokens t) (hkind : token.kind = .string) :
    Text.Reads t token.start token.text token.stop ∧
      ∃ quote rest, (quote = '\x22' ∨ quote = '\x27') ∧ t = t.upTo token.start ++ quote :: rest ∧
        ((∃ n, ClosesAt quote rest n ∧ token.text = quote :: rest.take (n + 1)) ∨
          (∀ n, ¬ ClosesAt quote rest n) ∧ token.text = quote :: rest ∧
            token.stop = lastPlace 0 t.lines) := by
  have hreads := lexer.codeTokens_reads t token htoken
  refine ⟨hreads, ?_⟩
  obtain ⟨hclosed, hleft⟩ := @lexLines_closed lexer.rules 0 none nofun t.lines
  rw [lexer.codeTokens_eq, List.mem_append] at htoken
  rcases htoken with htoken | htoken
  · -- a line of it closes the string
    obtain ⟨quote, inner, htext, hquote, hinner⟩ := hclosed token htoken hkind
    obtain ⟨more, hmore⟩ := hreads.exists_eq_append
    rw [htext, List.cons_append] at hmore
    refine ⟨quote, inner ++ more, hquote, hmore, Or.inl ?_⟩
    obtain ⟨n, hn⟩ := exists_eq_succ_of_closingQuote? hinner
    have hfind := closingQuote?_append_of_le (q := []) (by rwa [List.append_nil]) (Nat.le_refl _)
      more
    rw [hn] at hfind
    refine ⟨n, (closingQuote?_eq_some_iff (quote_ne hquote).2).mp hfind, ?_⟩
    rw [htext, ← hn, List.take_left]
  · -- it is open at the end of all lines
    rw [abandoned, Option.mem_toList, Option.map_eq_some_iff] at htoken
    obtain ⟨s, hs, rfl⟩ := htoken
    have hopen := hleft s hs
    obtain ⟨written, htext, hnone⟩ := hopen.exists_text
    rw [OpenString.abandon_eq htext] at hreads ⊢
    have hall := hreads.upTo_eq
    rw [Text.upTo_lastPlace] at hall
    exact ⟨s.quote, written, hopen.quote_eq, hall.symm,
      Or.inr ⟨(closingQuote?_eq_none_iff (quote_ne hopen.quote_eq).2).mp hnone, rfl, rfl⟩⟩

/-- The backslash takes the line feed behind it along, and the quote on the next row closes the
string. -/
theorem string_of_mem_codeTokens_sample :
    let lexer : Lexer := ⟨Rule.all.reverse, ['\x60', '\x60', '\x60']⟩
    let t : Text := "x \x22a\\\n\x22 y".toList
    let token : Token := ⟨.string, "\x22a\\\n\x22".toList, ⟨0, 2⟩, ⟨1, 1⟩⟩
    (token ∈ lexer.codeTokens t ∧ token.kind = .string) ∧
      Text.Reads t ⟨0, 2⟩ token.text ⟨1, 1⟩ ∧
      ∃ n, ClosesAt '\x22' "a\\\n\x22 y".toList n ∧
        token.text = '\x22' :: "a\\\n\x22 y".toList.take (n + 1) := by
  intro lexer t token
  have htoken : token ∈ lexer.codeTokens t := by decide +kernel
  have hkind : token.kind = .string := rfl
  obtain ⟨hreads, quote, rest, -, hrest, hends⟩ := lexer.string_of_mem_codeTokens htoken hkind
  refine ⟨⟨htoken, hkind⟩, hreads, ?_⟩
  have hfront : t.upTo token.start = ['x', ' '] := by decide +kernel
  rw [hfront] at hrest
  obtain ⟨rfl, rfl⟩ : '\x22' = quote ∧ "a\\\n\x22 y".toList = rest := by simpa [t] using hrest
  rcases hends with hclosed | ⟨-, htext, -⟩
  · exact hclosed
  · exact absurd htext (by decide +kernel)

end Lexer

end RmdOptions
