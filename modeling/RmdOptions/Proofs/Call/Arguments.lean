import RmdOptions.Call.Arguments
import RmdOptions.Proofs.Call.Span

/-!
# The arguments of a call

The arguments between the brackets of a call are cut at its commas, and not at those inside an
argument: an argument closes every bracket that it opens.

* `Neutral` — tokens that neither cut nor close anything;
* `Separated` — arguments with commas between them;
* `FullCall`, `FullCall.IsCall.readOptions_eq` — the options of a call whose arguments are known;
* `FoundCall.callAt?_replace` — the search when a call is written over another.
-/

namespace RmdOptions

/-! ## Tokens that belong together -/

/-- Puts tokens in front of the first of several arguments. -/
def prependTokens (ts : List Token) (groups : List (List Token)) : List (List Token) :=
  ts.foldr consToken groups

theorem prependTokens_append (ts us : List Token) (groups : List (List Token)) :
    prependTokens (ts ++ us) groups = prependTokens ts (prependTokens us groups) :=
  List.foldr_append

theorem prependTokens_cons (ts first : List Token) (groups : List (List Token)) :
    prependTokens ts (first :: groups) = (ts ++ first) :: groups := by
  induction ts with
  | nil => rfl
  | cons t ts ih =>
    have hstep : prependTokens (t :: ts) (first :: groups) =
        consToken t (prependTokens ts (first :: groups)) := rfl
    rw [hstep, ih]
    rfl

/-- Every bracket that is opened in some tokens is closed in them, and no other. -/
def Closes (ts : List Token) : Prop := ∀ depth rest,
  Cursor.closingOffset? ['('] [')'] depth (ts ++ rest) =
    (Cursor.closingOffset? ['('] [')'] depth rest).map (· + ts.length)

namespace Closes

variable {ts us : List Token}

theorem nil : Closes [] := by
  intro depth rest
  rw [List.nil_append]
  cases Cursor.closingOffset? ['('] [')'] depth rest <;> rfl

theorem append (hts : Closes ts) (hus : Closes us) : Closes (ts ++ us) := by
  intro depth rest
  rw [List.append_assoc, hts, hus, Option.map_map, List.length_append]
  congr 1
  funext k
  simp only [Function.comp_apply]
  omega

/-- The next closing bracket closes what is open before. -/
theorem closingOffset?_eq (h : Closes ts) {close : Token}
    (hclose : close.is .punctuation [')'] = true) (after : List Token) :
    Cursor.closingOffset? ['('] [')'] 0 (ts ++ close :: after) = some ts.length := by
  rw [h, (Cursor.closingOffset?_close hclose 0 after).1, Option.map_some, Nat.zero_add]

/-- Comments close nothing. -/
theorem of_comments (h : ∀ t ∈ ts, t.kind = .comment) : Closes ts := by
  induction ts with
  | nil => exact Closes.nil
  | cons t ts ih =>
    rw [List.forall_mem_cons] at h
    have hfirst : Closes [t] := Cursor.closingOffset?_cons (by simp [h.1])
    exact hfirst.append (ih h.2)

end Closes

/-- Tokens at which no argument is cut when they stand `least` or more brackets deep, and after
which as many brackets are open as before. -/
structure Neutral (least : Nat) (ts : List Token) : Prop where
  /-- they all belong to one argument -/
  split : ∀ depth, least ≤ depth → ∀ rest,
    splitArguments depth (ts ++ rest) = prependTokens ts (splitArguments depth rest)
  /-- every bracket that is opened is closed, and no other -/
  closing : ∀ depth rest, Cursor.closingOffset? ['('] [')'] depth (ts ++ rest) =
    (Cursor.closingOffset? ['('] [')'] depth rest).map (· + ts.length)

namespace Neutral

variable {least : Nat} {ts us : List Token}

theorem nil : Neutral least [] where
  split _ _ _ := rfl
  closing := Closes.nil

theorem append (hts : Neutral least ts) (hus : Neutral least us) : Neutral least (ts ++ us) where
  split depth hdepth rest := by
    rw [List.append_assoc, hts.split depth hdepth, hus.split depth hdepth, prependTokens_append]
  closing := Closes.append hts.closing hus.closing

theorem mono (h : Neutral 0 ts) : Neutral least ts where
  split depth _ := h.split depth (Nat.zero_le _)
  closing := h.closing

/-- A token that is no bracket, comma, comment or boundary stands in any argument. -/
theorem singleton {t : Token}
    (hkind : t.kind ≠ .punctuation ∧ t.kind ≠ .comment ∧ t.kind ≠ .chunkEnd) : Neutral 0 [t] where
  split depth _ rest := by
    have hdepth : depthAfter depth t = depth := by rw [depthAfter, if_neg hkind.1]
    rw [List.singleton_append, splitArguments, if_neg hkind.2.1, if_neg, hdepth]
    · rfl
    · simp [Token.is, hkind.1]
  closing depth rest := Cursor.closingOffset?_cons ⟨hkind.1, hkind.2.2⟩ depth rest

theorem of_is {t : Token} {kind : TokenKind} {text : Text} (ht : t.is kind text = true)
    (hkind : kind ≠ .punctuation ∧ kind ≠ .comment ∧ kind ≠ .chunkEnd) : Neutral 0 [t] := by
  rw [← (Token.is_iff.mp ht).1] at hkind
  exact singleton hkind

/-- A comma inside brackets cuts nothing. -/
theorem comma {t : Token} (ht : t.is .punctuation [','] = true) : Neutral 1 [t] where
  split depth hdepth rest := by
    obtain ⟨hkind, htext⟩ := Token.is_iff.mp ht
    have hsame : depthAfter depth t = depth := by simp [depthAfter, hkind, htext]
    rw [List.singleton_append, splitArguments, if_neg (by simp [hkind]), if_neg (by omega), hsame]
    rfl
  closing depth rest := by
    obtain ⟨hkind, htext⟩ := Token.is_iff.mp ht
    simp [Cursor.closingOffset?, Token.isBoundary, Token.is, hkind, htext]

/-- Brackets around tokens that cut nothing inside. -/
theorem bracketed {bracket close : Token} (hbracket : bracket.is .punctuation ['('] = true)
    (hclose : close.is .punctuation [')'] = true) (h : Neutral 1 ts) :
    Neutral 0 (bracket :: (ts ++ [close])) where
  split depth _ rest := by
    obtain ⟨hkind, htext⟩ := Token.is_iff.mp hbracket
    obtain ⟨hkind', htext'⟩ := Token.is_iff.mp hclose
    have hdeeper : depthAfter depth bracket = depth + 1 := by simp [depthAfter, hkind, htext]
    have hback : depthAfter (depth + 1) close = depth := by simp [depthAfter, hkind', htext']
    rw [List.cons_append, splitArguments, if_neg (by simp [hkind]),
      if_neg (by simp [Token.is, htext]), hdeeper, List.append_assoc,
      h.split (depth + 1) (Nat.le_add_left _ _), List.singleton_append, splitArguments,
      if_neg (by simp [hkind']), if_neg (by omega), hback]
    have hstep (t : Token) (us : List Token) (groups : List (List Token)) :
        prependTokens (t :: us) groups = consToken t (prependTokens us groups) := rfl
    rw [hstep, prependTokens_append]
    rfl
  closing depth rest := by
    rw [List.cons_append, Cursor.closingOffset?_bracket hbracket, List.append_assoc, h.closing,
      List.singleton_append, (Cursor.closingOffset?_close hclose depth rest).2, Option.map_map,
      Option.map_map]
    congr 1
    funext k
    simp only [Function.comp_apply, List.length_cons, List.length_append, List.length_nil]
    omega

end Neutral

/-- Tokens that belong to one argument are one. -/
theorem Neutral.splitArguments_eq {ts : List Token} (h : Neutral 0 ts) :
    splitArguments 0 ts = [ts] := by
  have hsplit := h.split 0 (Nat.le_refl 0) []
  rwa [List.append_nil, splitArguments, prependTokens_cons, List.append_nil] at hsplit

/-! ## Arguments -/

/-- What related pairs have in common holds of all that is related to something. -/
theorem forall_mem_of_forall₂ {α β : Type} {p : α → β → Prop} {q : β → Prop} {xs : List α}
    {ys : List β} (h : List.Forall₂ p xs ys) (hpq : ∀ x y, p x y → q y) : ∀ y ∈ ys, q y := by
  induction h with
  | nil => exact fun y hy => absurd hy List.not_mem_nil
  | cons hxy _ ih =>
    intro y hy
    rcases List.mem_cons.mp hy with rfl | hy
    · exact hpq _ _ hxy
    · exact ih y hy

/-- The tokens of an argument stand in their order among those that are cut. -/
theorem sublist_of_mem_splitArguments {depth : Nat} {ts group : List Token}
    (h : group ∈ splitArguments depth ts) : group.Sublist ts := by
  induction ts generalizing depth group with
  | nil =>
    rw [splitArguments, List.mem_singleton] at h
    rw [h]
  | cons t ts ih =>
    rw [splitArguments] at h
    split at h
    · exact (ih h).cons t
    · split at h
      · rcases List.mem_cons.mp h with rfl | h
        · exact List.nil_sublist _
        · exact (ih h).cons t
      · generalize hgroups : splitArguments (depthAfter depth t) ts = groups at h
        cases groups with
        | nil =>
          rw [consToken, List.mem_singleton] at h
          rw [h]
          exact (List.nil_sublist ts).cons_cons t
        | cons first groups =>
          rw [consToken, List.mem_cons] at h
          rcases h with rfl | h
          · exact (ih (hgroups ▸ List.mem_cons_self)).cons_cons t
          · exact (ih (hgroups ▸ List.mem_cons_of_mem _ h)).cons t

/-- Arguments with commas between them. -/
inductive Separated : List (List Token) → List Token → Prop where
  /-- one argument alone -/
  | last (group : List Token) : Separated [group] group
  /-- an argument with others behind it -/
  | cons (group : List Token) {comma : Token} (hcomma : comma.is .punctuation [','] = true)
    {groups : List (List Token)} {ts : List Token} (h : Separated groups ts) :
    Separated (group :: groups) (group ++ comma :: ts)

namespace Separated

variable {groups : List (List Token)} {ts : List Token}

/-- Arguments are cut at the commas between them. -/
theorem splitArguments_eq (h : Separated groups ts) (hneutral : ∀ group ∈ groups, Neutral 0 group) :
    splitArguments 0 ts = groups := by
  induction h with
  | last group => exact (hneutral group List.mem_cons_self).splitArguments_eq
  | @cons group comma hcomma groups ts _ ih =>
    obtain ⟨hkind, -⟩ := Token.is_iff.mp hcomma
    rw [(hneutral group List.mem_cons_self).split 0 (Nat.le_refl _), splitArguments,
      if_neg (by simp [hkind]), if_pos ⟨rfl, hcomma⟩,
      ih fun g hg => hneutral g (List.mem_cons_of_mem _ hg), prependTokens_cons, List.append_nil]

/-- Inside brackets, arguments with commas between them cut nothing. -/
theorem neutral (h : Separated groups ts) (hneutral : ∀ group ∈ groups, Neutral 0 group) :
    Neutral 1 ts := by
  induction h with
  | last group => exact (hneutral group List.mem_cons_self).mono
  | @cons group comma hcomma groups ts _ ih =>
    have hrest := ih fun g hg => hneutral g (List.mem_cons_of_mem _ hg)
    exact (hneutral group List.mem_cons_self).mono.append ((Neutral.comma hcomma).append hrest)

end Separated

/-! ## Comments -/

/-- The tokens that are no comments. -/
def withoutComments (ts : List Token) : List Token := ts.filter (·.kind ≠ .comment)

theorem withoutComments_append (ts us : List Token) :
    withoutComments (ts ++ us) = withoutComments ts ++ withoutComments us :=
  List.filter_append ts us

/-- Comments do not count when arguments are cut. -/
theorem splitArguments_withoutComments (depth : Nat) (ts : List Token) :
    splitArguments depth (withoutComments ts) = splitArguments depth ts := by
  induction ts generalizing depth with
  | nil => rfl
  | cons t ts ih =>
    rw [withoutComments] at ih ⊢
    by_cases hcomment : t.kind = .comment
    · rw [List.filter_cons_of_neg (by simp [hcomment]), ih, splitArguments, if_pos hcomment]
    · rw [List.filter_cons_of_pos (by simp [hcomment])]
      simp only [splitArguments, ih]

/-- Tokens that stand in any argument are no comments. -/
theorem Neutral.withoutComments_eq {ts : List Token} (h : Neutral 0 ts) :
    withoutComments ts = ts := by
  have hgroup : ts ∈ splitArguments 0 (withoutComments ts) := by
    rw [splitArguments_withoutComments, h.splitArguments_eq]
    exact List.mem_singleton_self ts
  exact (List.filter_sublist (p := _)).antisymm (sublist_of_mem_splitArguments hgroup)

/-! ## Options of a call -/

/-- The tokens of a call that is written out in full. -/
structure FullCall where
  /-- the package -/
  package : Token
  /-- the colons behind it -/
  colons : Token
  /-- the object -/
  object : Token
  /-- the dollar behind it -/
  dollar : Token
  /-- the method -/
  method : Token
  /-- the bracket that opens the arguments -/
  bracket : Token
  /-- the arguments, each by its own tokens -/
  groups : List (List Token)
  /-- all tokens between the brackets -/
  inner : List Token
  /-- the bracket that closes the call -/
  close : Token

namespace FullCall

/-- The tokens of a call from its object on. -/
def objectTokens (call : FullCall) : List Token :=
  call.object :: call.dollar :: call.method :: call.bracket :: (call.inner ++ [call.close])

/-- All tokens of a call, in order. -/
def tokens (call : FullCall) : List Token := call.package :: call.colons :: call.objectTokens

theorem objectTokens_append (call : FullCall) (after : List Token) :
    call.objectTokens ++ after = call.object :: call.dollar :: call.method :: call.bracket ::
      (call.inner ++ call.close :: after) := by
  simp [objectTokens]

theorem tokens_append (call : FullCall) (after : List Token) :
    call.tokens ++ after = call.package :: call.colons :: call.object :: call.dollar ::
      call.method :: call.bracket :: (call.inner ++ call.close :: after) := by
  simp [tokens, objectTokens]

/-- The tokens make up a call of the shape. -/
structure IsCall (shape : CallShape) (call : FullCall) : Prop where
  /-- the head of the call -/
  head : CallHead shape call.package call.colons call.object call.dollar call.method call.bracket
  /-- the arguments have commas between them -/
  separated : Separated call.groups call.inner
  /-- an argument is not cut inside -/
  neutral : ∀ group ∈ call.groups, Neutral 0 group
  /-- the last token closes the call -/
  close_is : call.close.is .punctuation [')'] = true
  /-- the arguments start behind the package -/
  start_le_bracket : call.package.start ≤ call.bracket.start
  /-- so does what follows the call -/
  start_le_stop : call.package.start ≤ call.close.stop

variable {shape : CallShape} {call : FullCall}

namespace IsCall

/-- The bracket of a call is closed behind its arguments. -/
theorem closingOffset?_inner (h : call.IsCall shape) (after : List Token) :
    Cursor.closingOffset? ['('] [')'] 0 (call.inner ++ call.close :: after) =
      some call.inner.length :=
  Closes.closingOffset?_eq (h.separated.neutral h.neutral).closing h.close_is after

/-- **A call that is written out is found at once**, whatever follows. -/
theorem callAt?_eq (h : call.IsCall shape) (after : List Token) :
    callAt? shape (call.tokens ++ after) = some (2, call.inner.length + 6) := by
  rw [tokens_append, h.head.callAt?_eq (h.closingOffset?_inner after)]

/-- From its object on, a call is found as well. -/
theorem callAt?_object (h : call.IsCall shape) (after : List Token) :
    callAt? shape (call.objectTokens ++ after) = some (0, call.inner.length + 4) := by
  rw [objectTokens_append, (h.head.finds (h.closingOffset?_inner after)).callAt?_eq]
  congr 2
  omega

/-- A call closes no bracket that is open before it. -/
theorem neutral_object (h : call.IsCall shape) : Neutral 0 call.objectTokens := by
  have harguments := Neutral.bracketed h.head.bracket h.close_is (h.separated.neutral h.neutral)
  exact (Neutral.of_is h.head.object (by decide)).append <|
    (Neutral.of_is h.head.dollar (by decide)).append <|
      (Neutral.of_is h.head.method (by decide)).append harguments

theorem neutral_tokens (h : call.IsCall shape) : Neutral 0 call.tokens :=
  (Neutral.of_is h.head.package (by decide)).append <|
    (Neutral.of_is h.head.colons (by decide)).append h.neutral_object

/-- The qualifier of a call is as good as any other. -/
theorem alike_qualifier (h : call.IsCall shape) {package colons : Token}
    (hpackage : package.is .identifier shape.package = true)
    (hcolons : colons.is .operator [':', ':'] = true ∨ colons.is .operator [':', ':', ':'] = true) :
    List.Forall₂ (Alike shape) [package, colons] [call.package, call.colons] := by
  refine .cons ?_ (.cons ?_ .nil)
  · obtain ⟨hkind, htext⟩ := Token.is_iff.mp hpackage
    obtain ⟨hkind', htext'⟩ := Token.is_iff.mp h.head.package
    exact Alike.of_eq (hkind.trans hkind'.symm) (htext.trans htext'.symm)
  · have hdollar {text : Text} (hcolons : colons.is .operator text = true) (hne : text ≠ ['$']) :
        Alike shape colons call.colons := by
      obtain ⟨hkind, rfl⟩ := Token.is_iff.mp hcolons
      obtain ⟨hkind', htext'⟩ := Token.is_iff.mp h.head.colons
      exact Alike.operators hkind hkind' ⟨hne, by rw [htext']; decide⟩
    rcases hcolons with hcolons | hcolons
    · exact hdollar hcolons (by decide)
    · exact hdollar hcolons (by decide)

/-- The tokens between the brackets of a call. -/
theorem argumentTokens_eq (h : call.IsCall shape) {before : List Token} (after : List Token)
    (hbefore : ∀ t ∈ before, t.start < call.package.start) :
    argumentTokens (before ++ (call.tokens ++ after)) call.package.start
      (before.length + (call.inner.length + 6)) = call.inner := by
  have htake : (before ++ (call.tokens ++ after)).take (before.length + (call.inner.length + 6)) =
      before ++ call.package :: call.colons :: call.object :: call.dollar :: call.method ::
        call.bracket :: call.inner := by
    rw [List.take_length_add_append]
    simp only [tokens, objectTokens, List.cons_append, List.append_assoc, List.take_succ_cons,
      List.take_left]
  have hpass {t : Token} {kind : TokenKind} {text : Text} (ht : t.is kind text = true)
      (hkind : kind ≠ .punctuation) (rest : List Token) :
      (t :: rest).dropWhile
          (fun t => !(decide (call.package.start ≤ t.start) && t.is .punctuation ['('])) =
        rest.dropWhile
          fun t => !(decide (call.package.start ≤ t.start) && t.is .punctuation ['(']) := by
    have hne : t.is .punctuation ['('] = false := by
      simp [Token.is, (Token.is_iff.mp ht).1, hkind]
    rw [List.dropWhile_cons, if_pos]
    rw [hne, Bool.and_false, Bool.not_false]
  have hearlier : ∀ t ∈ before,
      (!(decide (call.package.start ≤ t.start) && t.is .punctuation ['('])) = true := by
    intro t ht
    have hlt := Position.lt_iff_not_le.mp (hbefore t ht)
    rw [decide_eq_false hlt, Bool.false_and, Bool.not_false]
  rw [argumentTokens, htake, List.dropWhile_append_of_pos hearlier,
    hpass h.head.package (by decide), hpass h.head.colons (by decide),
    hpass h.head.object (by decide), hpass h.head.dollar (by decide),
    hpass h.head.method (by decide), List.dropWhile_cons, if_neg, List.drop_one, List.tail_cons]
  simp [h.start_le_bracket, h.head.bracket]

/-- The span of a call runs from its package to its closing bracket. -/
theorem spanAt_eq (h : call.IsCall shape) (before after : List Token) :
    shape.spanAt (before ++ (call.tokens ++ after))
        (before.length + 2, before.length + (call.inner.length + 6)) =
      some (Span.ofEnds call.package.start call.close.stop) := by
  have hobject : (before ++ (call.tokens ++ after))[before.length + 2]? = some call.object := by
    rw [List.getElem?_append_right (Nat.le_add_right _ _), Nat.add_sub_cancel_left]
    rfl
  have hlast : (before ++ (call.tokens ++ after))[before.length + (call.inner.length + 6)]? =
      some call.close := by
    rw [List.getElem?_append_right (Nat.le_add_right _ _), Nat.add_sub_cancel_left]
    simp [tokens, objectTokens]
  have htake : ((before ++ (call.tokens ++ after)).take (before.length + 2)).reverse =
      call.colons :: call.package :: before.reverse := by
    rw [List.take_length_add_append]
    simp [tokens, objectTokens]
  have hqualifier : qualifier? shape (call.colons :: call.package :: before.reverse) =
      some call.package := by
    simp [qualifier?, h.head.colons, h.head.package]
  rw [CallShape.spanAt]
  dsimp only
  rw [hobject, hlast, htake, hqualifier]
  rfl

/-- **The options of a call are its named arguments**, when it is the first that is found. -/
theorem readOptions_eq (h : call.IsCall shape) {lexer : Lexer} {source : Text}
    {before after : List Token}
    (htokens : lexer.codeTokens source = before ++ (call.tokens ++ after))
    (hbefore : ∀ t ∈ before, t.start < call.package.start)
    (hcall : callAt? shape (lexer.codeTokens source) =
      some (before.length + 2, before.length + (call.inner.length + 6))) :
    readOptions lexer shape source =
      .ok (.ofList (call.groups.filterMap (namedArgument? source))) := by
  obtain ⟨hspan, hplace⟩ := locate_eq shape (Cursor.start (lexer.codeTokens source)) (Nat.zero_le _)
  have hstart : (Cursor.start (lexer.codeTokens source)).place = 0 := rfl
  rw [hstart, later_zero, List.drop_zero, hcall] at hspan hplace
  have hplace := hplace _ rfl
  have hlength := congrArg List.length htokens
  simp only [tokens, objectTokens, List.length_append, List.length_cons, List.length_nil] at hlength
  have hat := h.spanAt_eq before after
  rw [← htokens] at hat
  rw [Option.bind_some, hat] at hspan
  rw [readOptions]
  split
  · next hlocate =>
    rw [hlocate] at hspan
    cases hspan
  · next span c hlocate =>
    rw [hlocate] at hspan hplace
    obtain rfl := Option.some.inj hspan
    dsimp only at hplace
    have hindex : c.index? = some (before.length + (call.inner.length + 6)) := by
      rw [Cursor.index?, if_pos ⟨by omega, by omega⟩, hplace, Nat.add_sub_cancel]
    rw [hindex, Span.ofEnds_start_of_le h.start_le_stop]
    dsimp only
    rw [htokens, h.argumentTokens_eq after hbefore, h.separated.splitArguments_eq h.neutral]

end IsCall

end FullCall

/-! ## Writing over a call -/

theorem Neutral.closingOffset?_eq_none {least depth : Nat} {ts us : List Token}
    (h : Neutral least ts) :
    Cursor.closingOffset? ['('] [')'] depth (ts ++ us) = none ↔
      Cursor.closingOffset? ['('] [')'] depth us = none := by
  rw [h.closing, Option.map_eq_none_iff]

/-- **What is written over a call is searched next**, whether tokens in front of it that the search
does not tell apart are exchanged or not. -/
theorem FoundCall.callAt?_replace {shape : CallShape} {ts before inside after : List Token}
    {object close : Token} (h : FoundCall shape ts before object inside close after)
    {before' written after' : List Token} (hbefore : List.Forall₂ (Alike shape) before before')
    {least : Nat} (hwritten : Neutral least written)
    (hafter : ∀ depth, Cursor.closingOffset? ['('] [')'] depth after = none →
      Cursor.closingOffset? ['('] [')'] depth after' = none) :
    callAt? shape (before' ++ (written ++ after')) =
      later before'.length (callAt? shape (written ++ after')) := by
  have hlength := hbefore.length_eq
  have halike :
      List.Forall₂ (Alike shape) ts (before' ++ object :: (inside ++ close :: after)) := by
    rw [h.tokens_eq]
    exact List.rel_append hbefore (List.forall₂_same.mpr fun t _ => Alike.refl t)
  have hfound := h.callAt?_eq
  rw [callAt?_congr halike, hlength] at hfound
  refine RmdOptions.callAt?_replace hfound fun depth hnone => ?_
  rw [h.balanced, Option.map_eq_none_iff] at hnone
  exact hwritten.closingOffset?_eq_none.mpr (hafter depth hnone)

end RmdOptions
