import RmdOptions.Call.Arguments
import RmdOptions.Proofs.Call.Complete

/-!
# What reading options comes to

Reading the options of some code ends in one of three ways. Where the search finds a call, the
options are the named arguments among the tokens between its brackets. Where it finds none, the code
sets no options, or is refused because the head of a call stands in it.

* `argumentTokens_eq` — the tokens between the brackets of a call, by their indexes;
* `readOptions_of_callAt?` — **the options are the named arguments between the brackets**;
* `readOptions_of_locate_eq_some`, `readOptions_of_locate_eq_none` — the same for the span that is
  found, and what is read when none is;
* `readOptions_eq_error_iff`, `callAt?_of_readOptions` — when code is refused, and what is known
  when an option is read;
* `LeadsIn`, `LeadsIn.readOptions_eq` — a call with no candidate before it.
-/

namespace RmdOptions

variable {shape : CallShape} {lexer : Lexer} {source : Text} {tokens : List Token} {span : Span}
variable {j k : Nat}

/-! ## Where the search ends -/

/-- The search from before the first token on ends with the call that the search in a list finds. -/
theorem locate_start_of_callAt? (hordered : InOrder tokens)
    (h : callAt? shape tokens = some (j, k)) :
    ∃ span, (locate shape (Cursor.start tokens)).1 = some span ∧
      CoversCall shape tokens j k span ∧
        (locate shape (Cursor.start tokens)).2.index? = some k := by
  obtain ⟨hcall, -⟩ := CallAt.of_callAt? h
  obtain ⟨span, hspan, hcovers⟩ := hcall.exists_coversCall hordered
  obtain ⟨hlocate, hplace⟩ := locate_eq shape (Cursor.start tokens) (Nat.zero_le _)
  have hstart : (Cursor.start tokens).place = 0 := rfl
  rw [hstart, later_zero, List.drop_zero, h] at hlocate hplace
  refine ⟨span, ?_, hcovers, ?_⟩
  · rw [hlocate, Option.bind_some, hspan]
  · obtain ⟨close, hclose, -⟩ := hcall.close
    obtain ⟨hk, -⟩ := List.getElem?_eq_some_iff.mp hclose
    have hend := hplace _ rfl
    dsimp only at hend
    rw [Cursor.index?, if_pos ⟨by omega, by omega⟩, hend, Nat.add_sub_cancel]

/-- The search with a cursor finds nothing exactly if the search in a list does. -/
theorem locate_start_eq_none_iff :
    (locate shape (Cursor.start tokens)).1 = none ↔ callAt? shape tokens = none := by
  rw [locate_start]
  cases hcall : callAt? shape tokens with
  | none => exact ⟨fun _ => rfl, fun _ => rfl⟩
  | some at' =>
    obtain ⟨j, k⟩ := at'
    obtain ⟨object, hobject, -⟩ := (CallAt.of_callAt? hcall).1.object
    obtain ⟨close, hclose, -⟩ := (CallAt.of_callAt? hcall).1.close
    rw [Option.bind_some, CallShape.spanAt]
    dsimp only
    rw [hobject, hclose]
    exact iff_of_false (Option.some_ne_none _) (Option.some_ne_none _)

/-! ## The arguments -/

/-- A token is not of two kinds. -/
theorem HasToken.is_eq_false {ts : List Token} {i : Nat} {kind kind' : TokenKind}
    {text text' : Text} (h : HasToken ts i kind text) (hne : kind ≠ kind') {t : Token}
    (ht : ts[i]? = some t) : t.is kind' text' = false := by
  obtain ⟨u, hu, his⟩ := h
  obtain rfl := Option.some.inj (hu.symm.trans ht)
  simp [Token.is, (Token.is_iff.mp his).1, hne]

/-- Where the span of a call starts: with the object of the call, or two tokens before it, and no
bracket stands between its start and the arguments. -/
theorem CoversCall.exists_first (hcovers : CoversCall shape tokens j k span)
    (hcall : CallAt shape tokens j k) :
    ∃ i first, i ≤ j ∧ tokens[i]? = some first ∧ first.start = span.start ∧
      ∀ m t, i ≤ m → m < j + 3 → tokens[m]? = some t → t.is .punctuation ['('] = false := by
  have hhead (m : Nat) (t : Token) (hjm : j ≤ m) (hm : m < j + 3) (ht : tokens[m]? = some t) :
      t.is .punctuation ['('] = false := by
    obtain rfl | rfl | rfl : m = j ∨ m = j + 1 ∨ m = j + 2 := by omega
    · exact hcall.object.is_eq_false (by decide) ht
    · exact hcall.dollar.is_eq_false (by decide) ht
    · exact hcall.method.is_eq_false (by decide) ht
  by_cases hqualified : IsQualified shape tokens j
  · obtain ⟨first, hfirst, hstart⟩ := Option.map_eq_some_iff.mp (hcovers.qualified hqualified)
    obtain ⟨i, rfl, hpackage, hcolons⟩ := hqualified
    refine ⟨i, first, Nat.le_add_right _ _, hfirst, hstart, fun m t him hm ht => ?_⟩
    obtain rfl | rfl | hle : m = i ∨ m = i + 1 ∨ i + 2 ≤ m := by omega
    · exact hpackage.is_eq_false (by decide) ht
    · rcases hcolons with hcolons | hcolons
      · exact hcolons.is_eq_false (by decide) ht
      · exact hcolons.is_eq_false (by decide) ht
    · exact hhead m t hle hm ht
  · obtain ⟨first, hfirst, hstart⟩ := Option.map_eq_some_iff.mp (hcovers.bare hqualified)
    exact ⟨j, first, Nat.le_refl j, hfirst, hstart, fun m t => hhead m t⟩

/-- What is left when some elements are dropped from the front, up to one that is kept. -/
theorem dropWhile_of_getElem? {α : Type} {p : α → Bool} {xs : List α} {n : Nat} {x : α}
    (hx : xs[n]? = some x) (hp : p x = false) (hfront : ∀ y ∈ xs.take n, p y = true) :
    xs.dropWhile p = x :: xs.drop (n + 1) := by
  induction n generalizing xs with
  | zero =>
    obtain ⟨xs, rfl⟩ := List.head?_eq_some_iff.mp (List.head?_eq_getElem? ▸ hx)
    rw [List.dropWhile_cons, if_neg (by simp [hp])]
    rfl
  | succ n ih =>
    cases xs with
    | nil => simp at hx
    | cons y xs =>
      rw [List.take_succ_cons, List.forall_mem_cons] at hfront
      rw [List.dropWhile_cons, if_pos hfront.1, ih (by simpa using hx) hfront.2]
      rfl

/-- **The tokens between the brackets of a call**, by their indexes. -/
theorem argumentTokens_eq (hstarts : tokens.Pairwise fun t later => t.start < later.start)
    (hcall : CallAt shape tokens j k) (hcovers : CoversCall shape tokens j k span) :
    argumentTokens tokens span.start k = (tokens.take k).drop (j + 4) := by
  obtain ⟨i, first, hij, hfirst, hstart, hinside⟩ := hcovers.exists_first hcall
  obtain ⟨bracket, hbracket, hbracketis⟩ := hcall.bracket
  have hlt := hcall.lt
  have hbehind {m m' : Nat} {t u : Token} (hm : m < m') (ht : tokens[m]? = some t)
      (hu : tokens[m']? = some u) : t.start < u.start := by
    obtain ⟨hm', rfl⟩ := List.getElem?_eq_some_iff.mp ht
    obtain ⟨hu', rfl⟩ := List.getElem?_eq_some_iff.mp hu
    exact List.pairwise_iff_getElem.mp hstarts m m' hm' hu' hm
  have hget : (tokens.take k)[j + 3]? = some bracket := by
    rw [List.getElem?_take_of_lt (by omega), hbracket]
  -- no bracket is looked at before the one that opens the arguments
  have hpassed : ∀ t ∈ (tokens.take k).take (j + 3),
      (!(decide (span.start ≤ t.start) && t.is .punctuation ['('])) = true := by
    intro t ht
    obtain ⟨m, hm⟩ := List.getElem?_of_mem ht
    have hmlt : m < j + 3 := by
      have := (List.getElem?_eq_some_iff.mp hm).1
      rw [List.length_take] at this
      omega
    rw [List.getElem?_take_of_lt hmlt, List.getElem?_take_of_lt (by omega)] at hm
    by_cases him : i ≤ m
    · rw [hinside m t him hmlt hm, Bool.and_false, Bool.not_false]
    · have hearlier := hbehind (Nat.lt_of_not_le him) hm hfirst
      rw [hstart] at hearlier
      rw [decide_eq_false (Position.lt_iff_not_le.mp hearlier), Bool.false_and, Bool.not_false]
  have hopens : span.start ≤ bracket.start := by
    have hbracket := hbehind (by omega) hfirst hbracket
    rw [hstart, Position.lt_iff_not_le] at hbracket
    exact (Position.le_total _ _).resolve_right hbracket
  rw [argumentTokens, dropWhile_of_getElem? hget (by simp [hopens, hbracketis]) hpassed,
    List.drop_one, List.tail_cons]

/-! ## The options -/

/-- **The options are the named arguments between the brackets** of the call that the search
finds. -/
theorem readOptions_of_callAt? (h : callAt? shape (lexer.codeTokens source) = some (j, k)) :
    readOptions lexer shape source =
      .ok (.ofList ((splitArguments 0 (((lexer.codeTokens source).take k).drop (j + 4))).filterMap
        (namedArgument? source))) := by
  obtain ⟨span, hlocate, hcovers, hindex⟩ := locate_start_of_callAt? (lexer.inOrder source).2 h
  have hstarts := (lexer.codeTokens_tiles source).accounts.start_lt_start
  have harguments := argumentTokens_eq hstarts (CallAt.of_callAt? h).1 hcovers
  rw [readOptions]
  split
  · next hnone =>
    rw [hnone] at hlocate
    cases hlocate
  · next span' c hsome =>
    rw [hsome] at hlocate hindex
    obtain rfl := Option.some.inj hlocate
    dsimp only at hindex
    rw [hindex]
    dsimp only
    rw [harguments]

/-- Where no call is found there are no options, or the code is refused. -/
theorem readOptions_of_locate_eq_none
    (h : (locate shape (Cursor.start (lexer.codeTokens source))).1 = none) :
    readOptions lexer shape source = .ok .empty ∨
      ∃ start, readOptions lexer shape source = .error (.unbalanced start) := by
  rw [readOptions]
  split
  · cases headStart? shape (lexer.codeTokens source) with
    | none => exact .inl rfl
    | some head => exact .inr ⟨head.start, rfl⟩
  · next hsome =>
    rw [hsome] at h
    cases h

/-- Options are refused where a head stands but the search finds no call, with an error that names
the first head. -/
theorem readOptions_eq_error_iff {error : ExtractError} :
    readOptions lexer shape source = .error error ↔
      callAt? shape (lexer.codeTokens source) = none ∧
        ∃ head, headStart? shape (lexer.codeTokens source) = some head ∧
          error = .unbalanced head.start := by
  rw [← locate_start_eq_none_iff, readOptions]
  split
  · next c hlocate =>
    rw [hlocate, and_iff_right rfl]
    cases headStart? shape (lexer.codeTokens source) with
    | none => simp
    | some head => simp [eq_comm]
  · next span c hlocate =>
    rw [hlocate]
    split
    · simp
    · simp

theorem get?_empty (key : Text) : OptionMap.empty.get? key = none := rfl

/-- An option that is read is an argument of the call that the search finds. -/
theorem callAt?_of_readOptions {m : OptionMap} {key value : Text}
    (h : readOptions lexer shape source = .ok m) (hget : m.get? key = some value) :
    ∃ j k, callAt? shape (lexer.codeTokens source) = some (j, k) := by
  cases hcall : callAt? shape (lexer.codeTokens source) with
  | some at' => exact ⟨at'.1, at'.2, rfl⟩
  | none =>
    rcases readOptions_of_locate_eq_none (locate_start_eq_none_iff.mpr hcall) with
      hempty | ⟨start, herror⟩
    · obtain rfl := Except.ok.inj (hempty.symm.trans h)
      rw [get?_empty] at hget
      cases hget
    · rw [herror] at h
      cases h

/-! ## A call that comes first -/

/-- The head of a call comes first in some tokens: no candidate stands before its object. -/
structure LeadsIn (shape : CallShape) (before : List Token) (object dollar method bracket : Token) :
    Prop where
  /-- the tokens before the object neither end the chunk nor are objects -/
  before : ∀ t ∈ before, t.isBoundary = false ∧ t.is .identifier shape.object = false
  /-- the object -/
  object : object.is .identifier shape.object = true
  /-- the dollar behind it -/
  dollar : dollar.is .operator ['$'] = true
  /-- the method -/
  method : method.is .identifier shape.method = true
  /-- the bracket that opens the arguments -/
  bracket : bracket.is .punctuation ['('] = true

/-- The search passes over what is no candidate. -/
theorem callAt?_append_of_other {before ts : List Token}
    (h : ∀ t ∈ before, t.isBoundary = false ∧ t.is .identifier shape.object = false) :
    callAt? shape (before ++ ts) = later before.length (callAt? shape ts) := by
  induction before with
  | nil => rw [List.length_nil, later_zero, List.nil_append]
  | cons t before ih =>
    obtain ⟨⟨hboundary, hobject⟩, hrest⟩ := List.forall_mem_cons.mp h
    have hpasses : Passes shape t (before ++ ts) 0 :=
      .other (Bool.eq_false_iff.mp hboundary) (Bool.eq_false_iff.mp hobject)
    rw [List.cons_append, hpasses.callAt?_eq, List.drop_zero, ih hrest, later_later,
      List.length_cons]

namespace LeadsIn

variable {before rest : List Token} {object dollar method bracket close : Token}

/-- The call that comes first is found if its bracket is closed. -/
theorem callAt?_eq (h : LeadsIn shape before object dollar method bracket)
    (hclosing : Cursor.closingOffset? ['('] [')'] 0 rest = some k) :
    callAt? shape (before ++ object :: dollar :: method :: bracket :: rest) =
      some (before.length, before.length + 4 + k) := by
  have hboundary := Token.isBoundary_of_is h.object (by decide)
  have hfinds : Finds shape object (dollar :: method :: bracket :: rest) 3 k :=
    ⟨Bool.eq_false_iff.mp hboundary, h.object,
      followList_continuation h.dollar h.method h.bracket rest, hclosing⟩
  rw [callAt?_append_of_other h.before, hfinds.callAt?_eq, later_some]
  congr 2
  · omega
  · omega

/-- If it is not closed, the search goes on behind its bracket. -/
theorem callAt?_later (h : LeadsIn shape before object dollar method bracket)
    (hclosing : Cursor.closingOffset? ['('] [')'] 0 rest = none) :
    callAt? shape (before ++ object :: dollar :: method :: bracket :: rest) =
      later (before.length + 4) (callAt? shape rest) := by
  have hboundary := Token.isBoundary_of_is h.object (by decide)
  have hpasses : Passes shape object (dollar :: method :: bracket :: rest) 3 :=
    .unclosed (Bool.eq_false_iff.mp hboundary) h.object
      (followList_continuation h.dollar h.method h.bracket rest) hclosing
  rw [callAt?_append_of_other h.before, hpasses.callAt?_eq, later_later, Nat.add_comm (3 + 1)]
  rfl

/-- **The options of a call that comes first** are its named arguments. -/
theorem readOptions_eq (h : LeadsIn shape before object dollar method bracket)
    {inner after : List Token}
    (htokens : lexer.codeTokens source =
      before ++ object :: dollar :: method :: bracket :: (inner ++ close :: after))
    (hclosing : Cursor.closingOffset? ['('] [')'] 0 (inner ++ close :: after) =
      some inner.length) :
    readOptions lexer shape source =
      .ok (.ofList ((splitArguments 0 inner).filterMap (namedArgument? source))) := by
  have hinner : ((lexer.codeTokens source).take (before.length + 4 + inner.length)).drop
      (before.length + 4) = inner := by
    rw [htokens, Nat.add_assoc, List.take_length_add_append, Nat.add_comm 4, ← List.drop_drop,
      List.drop_left]
    simp [List.take_succ_cons]
  have hcall := h.callAt?_eq hclosing
  rw [← htokens] at hcall
  rw [readOptions_of_callAt? hcall, hinner]

end LeadsIn

end RmdOptions
