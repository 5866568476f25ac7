import Mathlib.Data.List.Forall2
import RmdOptions.Call.Locate

/-!
# The search for the options call, over lists

A cursor walks over a fixed list of tokens. What the search does from there on depends only on the
tokens that lie ahead, so it is the same as a search in a list, which tells the index of the object
and of the closing bracket of the first call.

* `followList`, `callAt?` — following and searching in a list of tokens;
* `qualifier?` — the package in front of an object, given the tokens before it;
* `locate_eq`, `locate_start` — the search with a cursor, in these terms.
-/

namespace RmdOptions

variable {tokens : List Token} {shape : CallShape}

theorem Token.is_iff {t : Token} {kind : TokenKind} {text : Text} :
    t.is kind text = true ↔ t.kind = kind ∧ t.text = text := by
  simp [Token.is]

/-- Only a boundary ends a chunk. -/
theorem Token.isBoundary_of_is {t : Token} {kind : TokenKind} {text : Text}
    (h : t.is kind text = true) (hkind : kind ≠ .chunkEnd) : t.isBoundary = false := by
  rw [Token.isBoundary, (Token.is_iff.mp h).1]
  simpa using hkind

/-! ## Following a list -/

/-- Steps along expected tokens at the front of a list. Also tells how many tokens it looked at. -/
def followList : List Expected → List Token → Progress × Nat
  | [], _ => (.complete, 0)
  | _ :: _, [] => (.stopped, 0)
  | (kind, text) :: more, t :: rest =>
    if t.isBoundary then (.stopped, 1)
    else if t.is kind text then
      ((followList more rest).1, (followList more rest).2 + 1)
    else (.broken, 1)

theorem followList_le (sequence : List Expected) (ts : List Token) :
    (followList sequence ts).2 ≤ ts.length := by
  fun_induction followList sequence ts with
  | case1 => exact Nat.zero_le _
  | case2 => exact Nat.zero_le _
  | case3 => simp
  | case4 kind text more t rest _ _ ih => simpa using ih
  | case5 => simp

namespace Cursor

theorem forward_place (c : Cursor tokens) (hc : c.place ≤ tokens.length) :
    c.forward.place = c.place + 1 := by
  rw [place_forward]
  omega

/-- The token after the cursor is the first of those ahead. -/
theorem current?_forward (c : Cursor tokens) :
    c.forward.current? = (tokens.drop c.place).head? := by
  by_cases hc : c.place ≤ tokens.length
  · rw [current?, forward_place c hc, List.head?_drop]
  · have hend : c.place = tokens.length + 1 := by
      have := c.place_le
      omega
    have hforward : c.forward.place = tokens.length + 1 := by
      simp only [forward]
      omega
    rw [current?, hforward, hend, List.head?_drop]
    simp

end Cursor

/-- Following with a cursor is following the tokens ahead. -/
theorem follow_eq (sequence : List Expected) (c : Cursor tokens) (hc : c.place ≤ tokens.length) :
    (follow sequence c).1 = (followList sequence (tokens.drop c.place)).1 ∧
      ((follow sequence c).1 ≠ .stopped →
        (follow sequence c).2.place =
          c.place + (followList sequence (tokens.drop c.place)).2) := by
  induction sequence generalizing c with
  | nil => exact ⟨rfl, fun _ => rfl⟩
  | cons expected more ih =>
    obtain ⟨kind, text⟩ := expected
    have hcurrent := c.current?_forward
    rw [follow]
    cases hahead : tokens.drop c.place with
    | nil =>
      rw [hahead, List.head?_nil] at hcurrent
      rw [hcurrent, followList]
      exact ⟨rfl, fun h => absurd rfl h⟩
    | cons t rest =>
      rw [hahead, List.head?_cons] at hcurrent
      have hlt : c.place < tokens.length := by
        have hlength := congrArg List.length hahead
        rw [List.length_drop, List.length_cons] at hlength
        omega
      have hplace := c.forward_place hc
      have hrest : tokens.drop c.forward.place = rest := by
        rw [hplace, ← List.drop_drop, hahead, List.drop_one, List.tail_cons]
      rw [hcurrent, followList]
      dsimp only
      split
      · exact ⟨rfl, fun h => absurd rfl h⟩
      · split
        · obtain ⟨hprogress, hstep⟩ := ih c.forward (by omega)
          rw [hrest] at hprogress hstep
          refine ⟨hprogress, fun hne => ?_⟩
          rw [hstep hne, hplace]
          dsimp only
          omega
        · exact ⟨rfl, fun _ => hplace⟩

/-! ## Searching a list -/

/-- The indexes of what was found behind `n` more tokens. -/
def later (n : Nat) (at? : Option (Nat × Nat)) : Option (Nat × Nat) :=
  at?.map fun at' => (at'.1 + n, at'.2 + n)

@[simp] theorem later_none (n : Nat) : later n none = none := rfl

@[simp] theorem later_some (n j k : Nat) : later n (some (j, k)) = some (j + n, k + n) := rfl

@[simp] theorem later_zero (at? : Option (Nat × Nat)) : later 0 at? = at? := by
  cases at? <;> rfl

theorem later_later (n m : Nat) (at? : Option (Nat × Nat)) :
    later n (later m at?) = later (m + n) at? := by
  cases at? with
  | none => rfl
  | some at' => simp [later, Nat.add_assoc]

/-- The indexes of the object and of the closing bracket of the first call in some tokens. -/
def callAt? (shape : CallShape) : List Token → Option (Nat × Nat)
  | [] => none
  | t :: rest =>
    if t.isBoundary then none
    else if t.is .identifier shape.object then
      let followed := followList shape.continuation rest
      match followed.1 with
      | .stopped => none
      | .broken => later (followed.2 + 1) (callAt? shape (rest.drop followed.2))
      | .complete =>
        match Cursor.closingOffset? ['('] [')'] 0 (rest.drop followed.2) with
        | some k => some (0, followed.2 + k + 1)
        | none => later (followed.2 + 1) (callAt? shape (rest.drop followed.2))
    else later 1 (callAt? shape rest)
termination_by ts => ts.length
decreasing_by all_goals simp only [List.length_drop, List.length_cons]; omega

/-- The search gives a token up, and goes on behind `n` more. -/
inductive Passes (shape : CallShape) (t : Token) (rest : List Token) : Nat → Prop where
  /-- the token is not the object of a call -/
  | other (hboundary : ¬ t.isBoundary = true) (hobject : ¬ t.is .identifier shape.object = true) :
    Passes shape t rest 0
  /-- something else follows it -/
  | broken (hboundary : ¬ t.isBoundary = true) (hobject : t.is .identifier shape.object = true)
    {n : Nat} (hfollow : followList shape.continuation rest = (.broken, n)) :
    Passes shape t rest n
  /-- the bracket of its call is not closed -/
  | unclosed (hboundary : ¬ t.isBoundary = true) (hobject : t.is .identifier shape.object = true)
    {n : Nat} (hfollow : followList shape.continuation rest = (.complete, n))
    (hoffset : Cursor.closingOffset? ['('] [')'] 0 (rest.drop n) = none) :
    Passes shape t rest n

theorem Passes.callAt?_eq {t : Token} {rest : List Token} {n : Nat} (h : Passes shape t rest n) :
    callAt? shape (t :: rest) = later (n + 1) (callAt? shape (rest.drop n)) := by
  rw [callAt?]
  cases h with
  | other hboundary hobject =>
    rw [if_neg hboundary, if_neg hobject]
    rfl
  | broken hboundary hobject hfollow =>
    rw [if_neg hboundary, if_pos hobject, hfollow]
  | unclosed hboundary hobject hfollow hoffset =>
    rw [if_neg hboundary, if_pos hobject, hfollow]
    dsimp only
    rw [hoffset]

theorem Passes.le {t : Token} {rest : List Token} {n : Nat} (h : Passes shape t rest n) :
    n ≤ rest.length := by
  have hle := followList_le shape.continuation rest
  cases h with
  | other => exact Nat.zero_le _
  | broken _ _ hfollow => rwa [hfollow] at hle
  | unclosed _ _ hfollow => rwa [hfollow] at hle

/-- A call is found at a token, with `n` tokens up to its bracket and `k` more inside. -/
structure Finds (shape : CallShape) (t : Token) (rest : List Token) (n k : Nat) : Prop where
  /-- the token does not end the chunk -/
  boundary : ¬ t.isBoundary = true
  /-- the token is the object -/
  object : t.is .identifier shape.object = true
  /-- its method and the bracket follow -/
  follow : followList shape.continuation rest = (.complete, n)
  /-- the bracket is closed -/
  offset : Cursor.closingOffset? ['('] [')'] 0 (rest.drop n) = some k

theorem Finds.callAt?_eq {t : Token} {rest : List Token} {n k : Nat}
    (h : Finds shape t rest n k) : callAt? shape (t :: rest) = some (0, n + k + 1) := by
  rw [callAt?, if_neg h.boundary, if_pos h.object, h.follow]
  dsimp only
  rw [h.offset]

/-- The search ends at a token, or among those that should go on with its call. -/
inductive Stops (shape : CallShape) (t : Token) (rest : List Token) : Prop where
  /-- the token ends the chunk -/
  | boundary (hboundary : t.isBoundary = true) : Stops shape t rest
  /-- the chunk or the tokens end where its call should go on -/
  | stopped (hobject : t.is .identifier shape.object = true)
    (hfollow : (followList shape.continuation rest).1 = .stopped) : Stops shape t rest

theorem Stops.callAt?_eq {t : Token} {rest : List Token} (h : Stops shape t rest) :
    callAt? shape (t :: rest) = none := by
  rw [callAt?]
  split
  · rfl
  · next hopen =>
    cases h with
    | boundary hboundary => exact absurd hboundary hopen
    | stopped hobject hfollow =>
      rw [if_pos hobject]
      dsimp only
      rw [hfollow]

/-- The search ends without a call, finds one at once, or passes the first token over. -/
theorem callAt?_cases (shape : CallShape) (t : Token) (rest : List Token) :
    Stops shape t rest ∨ (∃ n k, Finds shape t rest n k) ∨ ∃ n, Passes shape t rest n := by
  by_cases hboundary : t.isBoundary = true
  · exact Or.inl (.boundary hboundary)
  by_cases hobject : t.is .identifier shape.object = true
  · rcases hfollow : followList shape.continuation rest with ⟨progress, n⟩
    cases progress with
    | stopped => exact Or.inl (.stopped hobject (by rw [hfollow]))
    | broken => exact Or.inr (Or.inr ⟨n, .broken hboundary hobject hfollow⟩)
    | complete =>
      cases hoffset : Cursor.closingOffset? ['('] [')'] 0 (rest.drop n) with
      | none => exact Or.inr (Or.inr ⟨n, .unclosed hboundary hobject hfollow hoffset⟩)
      | some k => exact Or.inr (Or.inl ⟨n, k, hboundary, hobject, hfollow, hoffset⟩)
  · exact Or.inr (Or.inr ⟨0, .other hboundary hobject⟩)

/-- The package before an object, if it qualifies it; the tokens before the object are given with
the last one first. -/
def qualifier? (shape : CallShape) : List Token → Option Token
  | colons :: package :: _ =>
    if (colons.is .operator [':', ':'] || colons.is .operator [':', ':', ':']) &&
      package.is .identifier shape.package then some package else none
  | _ => none

/-! ## What is found -/

/-- Following the continuation of a call to its end takes three tokens. -/
theorem followList_complete {ts : List Token} {n : Nat}
    (h : followList shape.continuation ts = (.complete, n)) :
    n = 3 ∧ ∃ dollar method bracket rest, ts = dollar :: method :: bracket :: rest ∧
      dollar.is .operator ['$'] = true ∧ method.is .identifier shape.method = true ∧
      bracket.is .punctuation ['('] = true := by
  rw [CallShape.continuation] at h
  match ts with
  | [] => simp [followList] at h
  | [dollar] =>
    simp only [followList] at h
    split at h
    · simp at h
    · split at h <;> simp at h
  | [dollar, method] =>
    simp only [followList] at h
    split at h
    · simp at h
    · split at h
      · split at h
        · simp at h
        · split at h <;> simp at h
      · simp at h
  | dollar :: method :: bracket :: rest =>
    simp only [followList] at h
    split at h
    · simp at h
    · split at h
      · next hdollar =>
        split at h
        · simp at h
        · split at h
          · next hmethod =>
            split at h
            · simp at h
            · split at h
              · next hbracket =>
                simp only [Prod.mk.injEq, true_and] at h
                exact ⟨h.symm, dollar, method, bracket, rest, rfl, hdollar, hmethod, hbracket⟩
              · simp at h
          · simp at h
      · simp at h

/-- A dollar, the method and a bracket continue a call to its end. -/
theorem followList_continuation {dollar method bracket : Token}
    (hdollar : dollar.is .operator ['$'] = true)
    (hmethod : method.is .identifier shape.method = true)
    (hbracket : bracket.is .punctuation ['('] = true) (rest : List Token) :
    followList shape.continuation (dollar :: method :: bracket :: rest) = (.complete, 3) := by
  simp [CallShape.continuation, followList, hdollar, hmethod, hbracket,
    Token.isBoundary_of_is hdollar (by decide), Token.isBoundary_of_is hmethod (by decide),
    Token.isBoundary_of_is hbracket (by decide)]

/-- The bracket that is found is a closing one. -/
theorem Cursor.exists_of_closingOffset? {opening closing : Text} {depth k : Nat} {ts : List Token}
    (h : closingOffset? opening closing depth ts = some k) :
    ∃ inside close after, ts = inside ++ close :: after ∧ inside.length = k ∧
      close.is .punctuation closing = true := by
  induction ts generalizing depth k with
  | nil => cases h
  | cons t rest ih =>
    have hpass {d : Nat} (hd : (closingOffset? opening closing d rest).map (· + 1) = some k) :
        ∃ inside close after, t :: rest = inside ++ close :: after ∧ inside.length = k ∧
          close.is .punctuation closing = true := by
      obtain ⟨j, hj, rfl⟩ := Option.map_eq_some_iff.mp hd
      obtain ⟨inside, close, after, rfl, rfl, hclose⟩ := ih hj
      exact ⟨t :: inside, close, after, rfl, rfl, hclose⟩
    rw [closingOffset?] at h
    split at h
    · cases h
    · split at h
      · exact hpass h
      · split at h
        · next hclosing =>
          split at h
          · cases h
            exact ⟨[], t, rest, rfl, rfl, hclosing⟩
          · exact hpass h
        · exact hpass h

/-- Seen from further outside, a pair of brackets is passed over. -/
theorem Cursor.closingOffset?_closed {opening closing : Text} {depth : Nat}
    {inside after : List Token}
    {close : Token}
    (h : closingOffset? opening closing depth (inside ++ close :: after) = some inside.length)
    (d : Nat) :
    closingOffset? opening closing (depth + 1 + d) (inside ++ close :: after) =
      (closingOffset? opening closing d after).map (· + (inside.length + 1)) := by
  induction inside generalizing depth with
  | nil =>
    rw [List.nil_append, closingOffset?] at h ⊢
    split at h
    · cases h
    · next hboundary =>
      rw [if_neg hboundary]
      split at h
      · simp at h
      · next hopening =>
        rw [if_neg hopening]
        split at h
        · next hclosing =>
          rw [if_pos hclosing, if_neg (by omega)]
          split at h
          · next hdepth =>
            rw [hdepth, Nat.zero_add, Nat.add_sub_cancel_left]
            rfl
          · simp at h
        · simp at h
  | cons t inside ih =>
    have hpass {e : Nat} (he : (closingOffset? opening closing e (inside ++ close :: after)).map
          (· + 1) = some (inside.length + 1)) :
        (closingOffset? opening closing (e + 1 + d) (inside ++ close :: after)).map (· + 1) =
          (closingOffset? opening closing d after).map (· + (inside.length + 1 + 1)) := by
      obtain ⟨j, hj, hlength⟩ := Option.map_eq_some_iff.mp he
      obtain rfl : j = inside.length := by omega
      rw [ih hj, Option.map_map]
      rfl
    rw [List.cons_append, closingOffset?] at h ⊢
    split at h
    · cases h
    · next hboundary =>
      rw [if_neg hboundary]
      split at h
      · next hopening =>
        rw [if_pos hopening, Nat.add_right_comm, Nat.add_right_comm depth]
        exact hpass h
      · next hopening =>
        rw [if_neg hopening]
        split at h
        · next hclosing =>
          rw [if_pos hclosing, if_neg (by omega)]
          split at h
          · cases h
          · next hdepth =>
            have hless : depth + 1 + d - 1 = depth - 1 + 1 + d := by omega
            rw [hless]
            exact hpass h
        · next hclosing =>
          rw [if_neg hclosing]
          exact hpass h

/-- Only punctuation opens or closes brackets. -/
theorem Cursor.closingOffset?_cons {opening closing : Text} {t : Token}
    (hkind : t.kind ≠ .punctuation ∧ t.kind ≠ .chunkEnd) (depth : Nat) (rest : List Token) :
    closingOffset? opening closing depth (t :: rest) =
      (closingOffset? opening closing depth rest).map (· + 1) := by
  simp [closingOffset?, Token.isBoundary, Token.is, hkind.1, hkind.2]

/-- A round bracket goes one deeper. -/
theorem Cursor.closingOffset?_bracket {bracket : Token} (h : bracket.is .punctuation ['('] = true)
    (depth : Nat) (rest : List Token) :
    closingOffset? ['('] [')'] depth (bracket :: rest) =
      (closingOffset? ['('] [')'] (depth + 1) rest).map (· + 1) := by
  obtain ⟨hkind, htext⟩ := Token.is_iff.mp h
  simp [closingOffset?, Token.isBoundary, Token.is, hkind, htext]

/-- A closing bracket is the one that is looked for, or goes back by one. -/
theorem Cursor.closingOffset?_close {close : Token} (h : close.is .punctuation [')'] = true)
    (depth : Nat) (rest : List Token) :
    closingOffset? ['('] [')'] 0 (close :: rest) = some 0 ∧
      closingOffset? ['('] [')'] (depth + 1) (close :: rest) =
        (closingOffset? ['('] [')'] depth rest).map (· + 1) := by
  obtain ⟨hkind, htext⟩ := Token.is_iff.mp h
  simp [closingOffset?, Token.isBoundary, Token.is, hkind, htext]

/-- A call in some tokens, which are cut at its object and at the bracket that closes it. -/
structure FoundCall (shape : CallShape) (ts : List Token)
    (before : List Token) (object : Token) (inside : List Token) (close : Token)
    (after : List Token) : Prop where
  /-- the parts make up the tokens -/
  tokens_eq : ts = before ++ object :: (inside ++ close :: after)
  /-- the search finds the call -/
  callAt?_eq : callAt? shape ts = some (before.length, before.length + 1 + inside.length)
  /-- the object is a name -/
  object_is : object.is .identifier shape.object = true
  /-- the bracket that closes the call -/
  close_is : close.is .punctuation [')'] = true
  /-- no bracket that is open before the call is closed in it -/
  balanced : ∀ depth,
    Cursor.closingOffset? ['('] [')'] depth (object :: (inside ++ close :: after)) =
    (Cursor.closingOffset? ['('] [')'] depth after).map (· + (inside.length + 2))

/-- What stands between an object and the bracket that closes its call. -/
theorem Finds.foundCall {t : Token} {rest : List Token} {n k : Nat} (h : Finds shape t rest n k) :
    ∃ inside close after, FoundCall shape (t :: rest) [] t inside close after := by
  have hcall := h.callAt?_eq
  obtain ⟨-, hobject, hfollow, hoffset⟩ := h
  obtain ⟨rfl, dollar, method, bracket, rest, rfl, hdollar, hmethod, hbracket⟩ :=
    followList_complete hfollow
  obtain ⟨inner, close, after, hrest, hlength, hclose⟩ := Cursor.exists_of_closingOffset? hoffset
  obtain rfl : rest = inner ++ close :: after := hrest
  refine ⟨dollar :: method :: bracket :: inner, close, after, rfl, ?_, hobject, hclose, ?_⟩
  · rw [hcall, List.length_nil]
    simp only [List.length_cons, hlength]
    congr 2
    omega
  · intro depth
    have hkind {t : Token} {kind : TokenKind} {text : Text} (h : t.is kind text = true)
        (hkind : kind ≠ .punctuation ∧ kind ≠ .chunkEnd) :
        t.kind ≠ .punctuation ∧ t.kind ≠ .chunkEnd := by
      rwa [(Token.is_iff.mp h).1]
    have hinner : Cursor.closingOffset? ['('] [')'] (depth + 1) (inner ++ close :: after) =
        (Cursor.closingOffset? ['('] [')'] depth after).map (· + (inner.length + 1)) := by
      rw [← hlength] at hoffset
      have hclosed := Cursor.closingOffset?_closed hoffset depth
      rwa [Nat.zero_add, Nat.add_comm 1] at hclosed
    rw [Cursor.closingOffset?_cons (hkind hobject (by decide)), List.cons_append,
      Cursor.closingOffset?_cons (hkind hdollar (by decide)), List.cons_append,
      Cursor.closingOffset?_cons (hkind hmethod (by decide)), List.cons_append,
      Cursor.closingOffset?_bracket hbracket, hinner]
    simp only [Option.map_map]
    rfl

/-- Tokens that the search passes over stand before the call. -/
theorem FoundCall.passed {ts before inside after : List Token} {object close : Token}
    (h : FoundCall shape ts before object inside close after) {passed : List Token}
    (hpassed : callAt? shape (passed ++ ts) = later passed.length (callAt? shape ts)) :
    FoundCall shape (passed ++ ts) (passed ++ before) object inside close after where
  tokens_eq := by rw [h.tokens_eq, List.append_assoc]
  callAt?_eq := by
    rw [hpassed, h.callAt?_eq, later_some, List.length_append]
    congr 2
    · omega
    · omega
  object_is := h.object_is
  close_is := h.close_is
  balanced := h.balanced

/-- **What the search finds is a call.** -/
theorem exists_foundCall {ts : List Token} {at' : Nat × Nat} (h : callAt? shape ts = some at') :
    ∃ before object inside close after, FoundCall shape ts before object inside close after := by
  generalize hsize : ts.length = size
  induction size using Nat.strongRecOn generalizing ts at' with
  | ind size ih =>
    subst hsize
    cases ts with
    | nil => simp [callAt?] at h
    | cons t rest =>
      rcases callAt?_cases shape t rest with hstops | ⟨n, k, hfinds⟩ | ⟨n, hpasses⟩
      · rw [hstops.callAt?_eq] at h
        cases h
      · obtain ⟨inside, close, after, hfound⟩ := hfinds.foundCall
        exact ⟨[], t, inside, close, after, hfound⟩
      · have hcall := hpasses.callAt?_eq
        rw [hcall, later, Option.map_eq_some_iff] at h
        obtain ⟨at'', hrest, -⟩ := h
        obtain ⟨before, object, inside, close, after, hfound⟩ := ih (rest.drop n).length (by
          rw [List.length_drop, List.length_cons]
          omega) hrest rfl
        have hsplit : t :: rest = t :: rest.take n ++ rest.drop n := by
          rw [List.cons_append, List.take_append_drop]
        have hlength : (t :: rest.take n).length = n + 1 := by
          rw [List.length_cons, List.length_take_of_le hpasses.le]
        rw [hsplit] at hcall ⊢
        exact ⟨_, object, inside, close, after, hfound.passed (by rw [hcall, hlength])⟩

/-! ## The search with a cursor -/

namespace Cursor

/-- A cursor on a token splits the tokens at it. -/
theorem drop_of_current? {c : Cursor tokens} {t : Token} (h : c.current? = some t) :
    ∃ i, c.place = i + 1 ∧ i < tokens.length ∧ tokens[i]? = some t ∧
      tokens.drop i = t :: tokens.drop c.place := by
  rw [current?] at h
  cases hplace : c.place with
  | zero => rw [hplace] at h; cases h
  | succ i =>
    rw [hplace] at h
    obtain ⟨hlt, heq⟩ := List.getElem?_eq_some_iff.mp h
    exact ⟨i, rfl, hlt, h, by rw [← heq, List.drop_eq_getElem_cons hlt]⟩

end Cursor

/-- Looking back from a cursor is looking at the tokens before it, the last one first. -/
theorem qualifierStart?_eq {c : Cursor tokens} {i : Nat} (hplace : c.place = i + 1)
    (hi : i < tokens.length) :
    qualifierStart? shape c = (qualifier? shape (tokens.take i).reverse).map (·.start) := by
  have hback : c.backward.place = i := by rw [Cursor.place_backward, hplace, Nat.add_sub_cancel]
  have hback' : c.backward.backward.place = i - 1 := by
    rw [← hback]
    rfl
  rw [qualifierStart?, Cursor.current?, hback]
  cases i with
  | zero => simp [qualifier?]
  | succ j =>
    have hj : j < tokens.length := by omega
    rw [List.take_succ_eq_append_getElem hj, List.reverse_append, List.reverse_singleton,
      List.singleton_append, Cursor.current?, hback', Nat.add_sub_cancel]
    simp only [List.getElem?_eq_getElem hj]
    cases j with
    | zero => simp [qualifier?]
    | succ k =>
      have hk : k < tokens.length := by omega
      rw [List.take_succ_eq_append_getElem hk, List.reverse_append, List.reverse_singleton,
        List.singleton_append]
      simp only [List.getElem?_eq_getElem hk, qualifier?]
      -- the tests are made one after the other, or all at once
      by_cases hcolons : (tokens[k + 1].is .operator [':', ':'] ||
        tokens[k + 1].is .operator [':', ':', ':']) = true
      · by_cases hpackage : tokens[k].is .identifier shape.package = true
        · simp [hcolons, hpackage]
        · simp [hcolons, hpackage]
      · simp [hcolons]

/-- The span of a call with some indexes. -/
def CallShape.spanAt (shape : CallShape) (tokens : List Token) (at' : Nat × Nat) : Option Span :=
  match tokens[at'.1]?, tokens[at'.2]? with
  | some object, some close =>
    some (Span.ofEnds
      (((qualifier? shape (tokens.take at'.1).reverse).map (·.start)).getD object.start)
      close.stop)
  | _, _ => none

/-- The bracket that closes another one, by its offset in the tokens ahead. -/
theorem Cursor.closing?_place {c : Cursor tokens} {bracket : Token} {closing : Text}
    (h : c.current? = some bracket) (hcloser : bracket.closer? = some closing) :
    c.closing?.map (·.place) =
      (closingOffset? bracket.text closing 0 (tokens.drop c.place)).map (c.place + · + 1) := by
  rw [closing?, h]
  dsimp only
  rw [hcloser]
  dsimp only
  split
  · next hnone =>
    rw [hnone]
    rfl
  · next k hsome => exact (congrArg (Option.map (c.place + · + 1)) hsome).symm

/-- The bracket that closes a round one. -/
theorem Cursor.closing?_eq {c : Cursor tokens} {bracket : Token} (h : c.current? = some bracket)
    (hbracket : bracket.is .punctuation ['('] = true) :
    c.closing?.map (·.place) =
      (closingOffset? ['('] [')'] 0 (tokens.drop c.place)).map (c.place + · + 1) := by
  obtain ⟨hkind, htext⟩ := Token.is_iff.mp hbracket
  have hcloser : bracket.closer? = some [')'] := by simp [Token.closer?, hkind, htext]
  rw [closing?_place h hcloser, htext]

/-- The cursor on the bracket that closes a round one. -/
theorem Cursor.exists_closing? {c : Cursor tokens} {bracket : Token}
    (h : c.current? = some bracket) (hbracket : bracket.is .punctuation ['('] = true) {k : Nat}
    (hoffset : closingOffset? ['('] [')'] 0 (tokens.drop c.place) = some k) :
    ∃ close last, c.closing? = some close ∧ close.place = c.place + k + 1 ∧
      close.current? = some last ∧ tokens[c.place + k]? = some last := by
  have hclosing := closing?_eq h hbracket
  rw [hoffset, Option.map_some, Option.map_eq_some_iff] at hclosing
  obtain ⟨close, hclose, hplace⟩ := hclosing
  have hlt := closingOffset?_lt hoffset
  rw [List.length_drop] at hlt
  have hindex : c.place + k < tokens.length := by omega
  refine ⟨close, _, hclose, hplace, ?_, List.getElem?_eq_getElem hindex⟩
  rw [current?, hplace]
  exact List.getElem?_eq_getElem hindex

/-- What the search makes of the token under a cursor, in terms of the list from that token on. -/
theorem judge_cases (shape : CallShape) {c : Cursor tokens} {t : Token} {i : Nat}
    (hcurrent : c.current? = some t) (hplace : c.place = i + 1) :
    (∃ span d k, judge shape t c = .found span d ∧ callAt? shape (tokens.drop i) = some (0, k) ∧
        shape.spanAt tokens (i, i + k) = some span ∧ d.place = i + k + 1) ∨
      (∃ d, judge shape t c = .stop d ∧ callAt? shape (tokens.drop i) = none) ∨
      ∃ d n, judge shape t c = .resume d ∧ d.place = c.place + n ∧ d.place ≤ tokens.length ∧
        callAt? shape (tokens.drop i) = later (n + 1) (callAt? shape (tokens.drop d.place)) := by
  obtain ⟨i', hplace', hi, hget, hdrop⟩ := Cursor.drop_of_current? hcurrent
  obtain rfl : i' = i := by omega
  have hle : c.place ≤ tokens.length := by omega
  rw [hdrop, judge, callAt?]
  by_cases hboundary : t.isBoundary = true
  · exact Or.inr (Or.inl ⟨c, by rw [if_pos hboundary], by rw [if_pos hboundary]⟩)
  rw [if_neg hboundary, if_neg hboundary]
  by_cases hobject : t.is .identifier shape.object = true
  · rw [if_pos hobject, if_pos hobject]
    obtain ⟨hprogress, hstep⟩ := follow_eq shape.continuation c hle
    have hlength := followList_le shape.continuation (tokens.drop c.place)
    rw [List.length_drop] at hlength
    revert hprogress hstep hlength
    -- the cursor ends where the list does, unless the chunk ends
    generalize hfollow : follow shape.continuation c = followed
    generalize hlist : followList shape.continuation (tokens.drop c.place) = listed
    obtain ⟨progress, d⟩ := followed
    obtain ⟨progress', n⟩ := listed
    rintro (rfl : progress = progress') hstep hlength
    dsimp only at hstep hlength ⊢
    cases progress with
    | stopped => exact Or.inr (Or.inl ⟨d, rfl, rfl⟩)
    | broken =>
      have hd : d.place = c.place + n := hstep (by decide)
      refine Or.inr (Or.inr ⟨d, n, rfl, hd, by omega, ?_⟩)
      rw [hd, List.drop_drop]
    | complete =>
      have hd : d.place = c.place + n := hstep (by decide)
      obtain ⟨rfl, dollar, method, bracket, rest, hrest, -, -, hbracket⟩ :=
        followList_complete hlist
      have hdcurrent : d.current? = some bracket := by
        have hget : (tokens.drop c.place)[2]? = some bracket := by rw [hrest]; rfl
        rw [List.getElem?_drop] at hget
        rw [Cursor.current?, hd]
        exact hget
      have hdrop : tokens.drop d.place = (tokens.drop c.place).drop 3 := by
        rw [hd, List.drop_drop]
      dsimp only
      cases hoffset : Cursor.closingOffset? ['('] [')'] 0 ((tokens.drop c.place).drop 3) with
      | none =>
        have hclosing := Cursor.closing?_eq hdcurrent hbracket
        rw [hdrop, hoffset, Option.map_none, Option.map_eq_none_iff] at hclosing
        refine Or.inr (Or.inr ⟨d, 3, by rw [hclosing], hd, by omega, ?_⟩)
        rw [hdrop]
      | some k =>
        rw [← hdrop] at hoffset
        obtain ⟨close, last, hclose, hcloseplace, hlast, hget'⟩ :=
          Cursor.exists_closing? hdcurrent hbracket hoffset
        have hindex : d.place + k = i' + (3 + k + 1) := by omega
        rw [hclose]
        dsimp only
        rw [hlast]
        refine Or.inl ⟨_, close, 3 + k + 1, rfl, rfl, ?_, by rw [hcloseplace, hindex]⟩
        rw [CallShape.spanAt, ← hindex]
        dsimp only
        rw [hget, hget', qualifierStart?_eq hplace hi]
  · rw [if_neg hobject, if_neg hobject]
    exact Or.inr (Or.inr ⟨c, 0, rfl, rfl, hle, rfl⟩)

/-- **The search with a cursor is the search in the tokens ahead.** -/
theorem locate_eq (shape : CallShape) (c : Cursor tokens) (hc : c.place ≤ tokens.length) :
    (locate shape c).1 =
        (later c.place (callAt? shape (tokens.drop c.place))).bind (shape.spanAt tokens) ∧
      ∀ at', later c.place (callAt? shape (tokens.drop c.place)) = some at' →
        (locate shape c).2.place = at'.2 + 1 := by
  generalize hahead : c.ahead = ahead
  induction ahead using Nat.strongRecOn generalizing c with
  | ind ahead ih =>
    subst hahead
    rw [locate]
    split
    · next hcurrent =>
      rw [Cursor.current?_forward, List.head?_eq_none_iff] at hcurrent
      rw [hcurrent, callAt?]
      exact ⟨rfl, fun _ hnone => absurd hnone (by simp)⟩
    · next t hcurrent =>
      have hforward := c.forward_place hc
      rcases judge_cases shape hcurrent hforward with
        ⟨span, d, k, hjudge, hcall, hspan, hd⟩ | ⟨d, hjudge, hcall⟩ | ⟨d, n, hjudge, hd, hle, hcall⟩
      · rw [hcall]
        split
        · next hj =>
          rw [hjudge] at hj
          cases hj
          simp only [later_some, Nat.zero_add, Option.bind_some, Nat.add_comm k]
          refine ⟨hspan.symm, ?_⟩
          rintro _ ⟨⟩
          exact hd
        · next hj => rw [hjudge] at hj; cases hj
        · next hj => rw [hjudge] at hj; cases hj
      · rw [hcall]
        split
        · next hj => rw [hjudge] at hj; cases hj
        · exact ⟨rfl, fun _ hnone => absurd hnone (by simp)⟩
        · next hj => rw [hjudge] at hj; cases hj
      · split
        · next hj => rw [hjudge] at hj; cases hj
        · next hj => rw [hjudge] at hj; cases hj
        · next hj =>
          rw [hjudge] at hj
          cases hj
          have hfewer : d.ahead < c.ahead :=
            Nat.lt_of_le_of_lt (Cursor.ahead_le_ahead (place_le_of_judge hjudge))
              (Cursor.ahead_forward_lt hcurrent)
          have hplace : d.place = n + 1 + c.place := by omega
          have hlater : later c.place (callAt? shape (tokens.drop c.place)) =
              later d.place (callAt? shape (tokens.drop d.place)) := by
            rw [hcall, later_later, hplace]
          rw [hlater]
          exact ih _ hfewer d hle rfl

/-- From before the first token on, it is the search in all tokens. -/
theorem locate_start (shape : CallShape) (tokens : List Token) :
    (locate shape (Cursor.start tokens)).1 =
      (callAt? shape tokens).bind (shape.spanAt tokens) := by
  have hlocate := (locate_eq shape (Cursor.start tokens) (Nat.zero_le _)).1
  have hplace : (Cursor.start tokens).place = 0 := rfl
  rwa [hplace, later_zero, List.drop_zero] at hlocate

end RmdOptions
