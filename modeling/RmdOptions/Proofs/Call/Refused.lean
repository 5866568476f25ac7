import RmdOptions.Proofs.Call.Outcome

/-!
# Code that is refused

Code without a call that the search finds is refused when the head of a call stands somewhere in it.
The error names the first such head and says that its call is never closed. But the search does not
look at every head: a candidate takes along the tokens that it is compared with, up to the first
that does not fit, and none of them is a candidate any more. So what the error says is right only if
all heads have been candidates.

* `HeadAt`, `headStart?_eq_some_iff` — heads, and the one that the error names;
* `TakesAlong`, `Tried` — the tokens that a candidate takes along, and the tokens that are
  candidates;
* `callAt?_eq_none_iff` — the search finds nothing exactly if no call starts with a candidate;
* `Config.readOptions_refuses` — **which code is refused**, and what is then known of the head.
-/

namespace RmdOptions

variable {shape : CallShape} {ts : List Token} {t : Token} {rest : List Token} {i j k n : Nat}

/-! ## Heads -/

/-- The head of a call, whether or not the call is closed. -/
@[mk_iff]
structure HeadAt (shape : CallShape) (ts : List Token) (j : Nat) : Prop where
  /-- the object -/
  object : HasToken ts j .identifier shape.object
  /-- the dollar behind it -/
  dollar : HasToken ts (j + 1) .operator ['$']
  /-- the method -/
  method : HasToken ts (j + 2) .identifier shape.method
  /-- the bracket that opens the arguments -/
  bracket : HasToken ts (j + 3) .punctuation ['(']

instance (shape : CallShape) (ts : List Token) (j : Nat) : Decidable (HeadAt shape ts j) :=
  decidable_of_iff' _ (headAt_iff ..)

theorem CallAt.headAt (h : CallAt shape ts j k) : HeadAt shape ts j :=
  ⟨h.object, h.dollar, h.method, h.bracket⟩

theorem HeadAt.lt_length (h : HeadAt shape ts j) : j < ts.length := by
  obtain ⟨object, hobject, -⟩ := h.object
  exact (List.getElem?_eq_some_iff.mp hobject).1

theorem headAt_succ_iff : HeadAt shape (t :: rest) (j + 1) ↔ HeadAt shape rest j := by
  simp only [headAt_iff, Nat.succ_add, hasToken_succ_iff]

/-- The test for a head looks at the first four tokens. -/
theorem headStart?_cons (shape : CallShape) (t : Token) (rest : List Token) :
    headStart? shape (t :: rest) =
      if HeadAt shape (t :: rest) 0 then some t else headStart? shape rest := by
  match rest with
  | [] => simp [headStart?, headAt_iff, HasToken]
  | [_] => simp [headStart?, headAt_iff, HasToken]
  | [_, _] => simp [headStart?, headAt_iff, HasToken]
  | dollar :: method :: bracket :: rest =>
    rw [headStart?]
    simp only [headAt_iff, hasToken_succ_iff, hasToken_zero_iff, Bool.and_eq_true, and_assoc]

/-- The head that is looked for is the first. -/
theorem headStart?_eq_some_iff {head : Token} :
    headStart? shape ts = some head ↔
      ∃ j, HeadAt shape ts j ∧ (∀ i < j, ¬ HeadAt shape ts i) ∧ ts[j]? = some head := by
  induction ts with
  | nil => simp [headStart?, headAt_iff, HasToken]
  | cons t rest ih =>
    rw [headStart?_cons]
    by_cases hhead : HeadAt shape (t :: rest) 0
    · rw [if_pos hhead, Option.some.injEq]
      constructor
      · rintro rfl
        exact ⟨0, hhead, fun i hi => absurd hi (Nat.not_lt_zero i), rfl⟩
      · rintro ⟨j, -, hfirst, hget⟩
        cases j with
        | zero => exact Option.some.inj hget
        | succ j => exact absurd hhead (hfirst 0 (Nat.succ_pos j))
    · rw [if_neg hhead, ih]
      constructor
      · rintro ⟨j, hj, hfirst, hget⟩
        refine ⟨j + 1, headAt_succ_iff.mpr hj, fun i hi => ?_, hget⟩
        cases i with
        | zero => exact hhead
        | succ i => exact fun h => hfirst i (Nat.lt_of_succ_lt_succ hi) (headAt_succ_iff.mp h)
      · rintro ⟨j, hj, hfirst, hget⟩
        cases j with
        | zero => exact absurd hj hhead
        | succ j =>
          exact ⟨j, headAt_succ_iff.mp hj,
            fun i hi h => hfirst (i + 1) (Nat.succ_lt_succ hi) (headAt_succ_iff.mpr h), hget⟩

/-! ## Candidates -/

/-- A candidate at index `i` takes the token at index `j` along: as long as the tokens between them
go on as a call does, it is compared with the next. -/
@[mk_iff]
structure TakesAlong (shape : CallShape) (ts : List Token) (i j : Nat) : Prop where
  /-- a candidate is an object -/
  object : HasToken ts i .identifier shape.object
  /-- the token stands behind it -/
  lt : i < j
  /-- a call has no more than three tokens there -/
  le : j ≤ i + 3
  /-- the first of them is compared before the others -/
  dollar : i + 1 < j → HasToken ts (i + 1) .operator ['$']
  /-- so is the second before the third -/
  method : i + 2 < j → HasToken ts (i + 2) .identifier shape.method

instance (shape : CallShape) (ts : List Token) (i j : Nat) : Decidable (TakesAlong shape ts i j) :=
  decidable_of_iff' _ (takesAlong_iff ..)

/-- The search looks for a call at an index, as long as it has found none before: no candidate in
front of it has taken the token along. -/
def Tried (shape : CallShape) (ts : List Token) (j : Nat) : Prop :=
  ∀ i, i < j → Tried shape ts i → ¬ TakesAlong shape ts i j
termination_by j

/-- A token that no candidate could have taken along is one. -/
theorem tried_of_not_takesAlong (h : ∀ i < j, ¬ TakesAlong shape ts i j) : Tried shape ts j := by
  rw [Tried]
  exact fun i hi _ => h i hi

theorem takesAlong_drop_iff :
    TakesAlong shape (ts.drop n) i j ↔ TakesAlong shape ts (n + i) (n + j) := by
  simp only [takesAlong_iff, hasToken_drop_iff, Nat.add_assoc, Nat.add_lt_add_iff_left,
    Nat.add_le_add_iff_left]

/-- How many tokens are looked at when a sequence is followed, unless the tokens end: one more as
long as all before it have come. -/
theorem lt_followList_iff {sequence : List Expected} {m : Nat}
    (h : (followList sequence ts).1 ≠ .stopped) :
    m < (followList sequence ts).2 ↔
      m < sequence.length ∧ ∀ i < m, ∀ e, sequence[i]? = some e → HasToken ts i e.1 e.2 := by
  induction sequence generalizing ts m with
  | nil => simp [followList]
  | cons expected more ih =>
    obtain ⟨kind, text⟩ := expected
    cases ts with
    | nil => simp [followList] at h
    | cons t rest =>
      rw [followList] at h ⊢
      by_cases hboundary : t.isBoundary = true
      · rw [if_pos hboundary] at h
        exact absurd rfl h
      rw [if_neg hboundary] at h ⊢
      by_cases hfits : t.is kind text = true
      · rw [if_pos hfits] at h ⊢
        cases m with
        | zero => simp
        | succ m =>
          rw [Nat.add_lt_add_iff_right, ih h, List.length_cons, Nat.add_lt_add_iff_right]
          refine and_congr_right fun _ => ⟨fun hall i hi e he => ?_, fun hall i hi e he => ?_⟩
          · cases i with
            | zero =>
              cases he
              exact hasToken_zero_iff.mpr hfits
            | succ i => exact hasToken_succ_iff.mpr (hall i (by omega) e he)
          · exact hasToken_succ_iff.mp (hall (i + 1) (by omega) e he)
      · rw [if_neg hfits]
        cases m with
        | zero => simp
        | succ m =>
          refine ⟨fun hlt => absurd hlt (by simp), fun hall => ?_⟩
          exact absurd (hasToken_zero_iff.mp (hall.2 0 (Nat.succ_pos m) _ rfl)) hfits

/-- **What the search passes over is what the candidate takes along.** -/
theorem Passes.takesAlong_iff (h : Passes shape t rest n) :
    TakesAlong shape (t :: rest) 0 j ↔ 0 < j ∧ j ≤ n := by
  have hobject : HasToken (t :: rest) 0 .identifier shape.object ↔
      t.is .identifier shape.object = true := hasToken_zero_iff
  -- a candidate is followed for as long as the tokens go on as a call does
  have hcandidate (hobject' : t.is .identifier shape.object = true)
      (hfollow : (followList shape.continuation rest).1 ≠ .stopped) :
      TakesAlong shape (t :: rest) 0 j ↔
        0 < j ∧ j ≤ (followList shape.continuation rest).2 := by
    cases j with
    | zero => exact ⟨fun h => absurd h.lt (Nat.lt_irrefl 0), fun h => absurd h.1 (Nat.lt_irrefl 0)⟩
    | succ m =>
      rw [Nat.succ_le_iff, lt_followList_iff hfollow, RmdOptions.takesAlong_iff]
      have hlength : shape.continuation.length = 3 := rfl
      rw [hlength]
      constructor
      · rintro ⟨-, -, hle, hdollar, hmethod⟩
        refine ⟨Nat.succ_pos m, by omega, fun i hi e he => ?_⟩
        match i with
        | 0 =>
          cases he
          exact hasToken_succ_iff.mp (hdollar (by omega))
        | 1 =>
          cases he
          exact hasToken_succ_iff.mp (hmethod (by omega))
        | i + 2 => omega
      · rintro ⟨-, hlt, hall⟩
        refine ⟨hobject.mpr hobject', Nat.succ_pos m, by omega, fun hm => ?_, fun hm => ?_⟩
        · exact hasToken_succ_iff.mpr (hall 0 (by omega) _ rfl)
        · exact hasToken_succ_iff.mpr (hall 1 (by omega) _ rfl)
  cases h with
  | other _ hother =>
    refine ⟨fun h => absurd (hobject.mp h.object) hother, fun h => ?_⟩
    exact absurd h.1 (by omega)
  | broken _ hobject' hfollow =>
    have := hcandidate hobject' (by rw [hfollow]; exact nofun)
    rwa [hfollow] at this
  | unclosed _ hobject' hfollow =>
    have := hcandidate hobject' (by rw [hfollow]; exact nofun)
    rwa [hfollow] at this

/-- The first token is a candidate. -/
theorem tried_zero : Tried shape ts 0 :=
  tried_of_not_takesAlong fun i hi => absurd hi (Nat.not_lt_zero i)

/-- What the first candidate has taken along is none. -/
theorem Passes.not_tried (h : Passes shape t rest n) (hj : 0 < j) (hn : j ≤ n) :
    ¬ Tried shape (t :: rest) j := by
  intro htried
  rw [Tried] at htried
  exact htried 0 hj tried_zero (h.takesAlong_iff.mpr ⟨hj, hn⟩)

/-- Behind what is passed over, the candidates are those of the tokens from there on. -/
theorem Passes.tried_iff (h : Passes shape t rest n) :
    Tried shape (t :: rest) (n + 1 + j) ↔ Tried shape (rest.drop n) j := by
  induction j using Nat.strongRecOn with
  | ind j ih =>
    have htakes (i : Nat) : TakesAlong shape (t :: rest) (n + 1 + i) (n + 1 + j) ↔
        TakesAlong shape (rest.drop n) i j := by
      rw [← List.drop_succ_cons (a := t), takesAlong_drop_iff]
    rw [Tried, Tried.eq_1 shape (rest.drop n)]
    constructor
    · intro hfirst i hi htried
      rw [← htakes]
      exact hfirst (n + 1 + i) (by omega) ((ih i hi).mpr htried)
    · intro hfirst i hi htried
      by_cases hle : i ≤ n
      · intro htakes'
        rcases Nat.eq_zero_or_pos i with rfl | hpos
        · have := (h.takesAlong_iff.mp htakes').2
          omega
        · exact h.not_tried hpos hle htried
      · obtain ⟨i', rfl⟩ : ∃ i', i = n + 1 + i' := ⟨i - (n + 1), by omega⟩
        rw [htakes]
        exact hfirst i' (by omega) ((ih i' (by omega)).mp htried)

/-! ## The search -/

/-- **The search finds nothing exactly if no call starts with a candidate**, in tokens none of which
ends the chunk. -/
theorem callAt?_eq_none_iff (hopen : ∀ u ∈ ts, u.isBoundary = false) :
    callAt? shape ts = none ↔ ∀ j k, CallAt shape ts j k → ¬ Tried shape ts j := by
  generalize hsize : ts.length = size
  induction size using Nat.strongRecOn generalizing ts with
  | ind size ih =>
    subst hsize
    have hbetween (i k : Nat) : OpenBetween ts i k :=
      fun u hu => hopen u (List.mem_of_mem_take (List.mem_of_mem_drop hu))
    cases ts with
    | nil =>
      refine ⟨fun _ j k hcall => ?_, fun _ => by rw [callAt?]⟩
      exact absurd hcall.headAt.lt_length (Nat.not_lt_zero j)
    | cons t rest =>
      rcases callAt?_cases shape t rest with hstops | ⟨n, k, hfinds⟩ | ⟨n, hpasses⟩
      · rw [hstops.callAt?_eq]
        exact ⟨fun _ j k hcall => absurd (hbetween 0 k) (hstops.not_callAt hcall), fun _ => rfl⟩
      · rw [hfinds.callAt?_eq]
        exact ⟨fun h => absurd h (Option.some_ne_none _),
          fun h => absurd tried_zero (h 0 _ hfinds.callAt.1)⟩
      · have hopen' : ∀ u ∈ rest.drop n, u.isBoundary = false :=
          fun u hu => hopen u (List.mem_cons_of_mem t (List.mem_of_mem_drop hu))
        have hrest := ih (rest.drop n).length (by
          rw [List.length_drop, List.length_cons]
          omega) hopen' rfl
        have hshift (j k : Nat) : CallAt shape (t :: rest) (n + 1 + j) (n + 1 + k) ↔
            CallAt shape (rest.drop n) j k := by
          rw [← List.drop_succ_cons (a := t), callAt_drop_iff]
        rw [hpasses.callAt?_eq, later, Option.map_eq_none_iff, hrest]
        constructor
        · intro hnone j k hcall htried
          by_cases hle : j ≤ n
          · rcases Nat.eq_zero_or_pos j with rfl | hpos
            · obtain ⟨n', k', hfinds⟩ := hcall.exists_finds (hbetween 0 k)
              exact hpasses.not_finds hfinds
            · exact hpasses.not_tried hpos hle htried
          · have hlt := hcall.lt
            obtain ⟨j', rfl⟩ : ∃ j', j = n + 1 + j' := ⟨j - (n + 1), by omega⟩
            obtain ⟨k', rfl⟩ : ∃ k', k = n + 1 + k' := ⟨k - (n + 1), by omega⟩
            exact hnone j' k' ((hshift j' k').mp hcall) (hpasses.tried_iff.mp htried)
        · intro hnone j k hcall htried
          exact hnone _ _ ((hshift j k).mpr hcall) (hpasses.tried_iff.mpr htried)

/-! ## What is refused -/

/-- **Which code is refused.** Code is refused exactly if the head of a call stands in it, and no
call starts with a candidate; the error then names the first head. If all heads are candidates, the
call with that head is not closed, and code in which every call is closed is not refused. -/
theorem Config.readOptions_refuses (config : Config) (source : Text) :
    let tokens := (Lexer.closedBy config.closingFence).codeTokens source
    (∀ error, config.readOptions source = .error error ↔
        ∃ j head, HeadAt config.shape tokens j ∧ (∀ i < j, ¬ HeadAt config.shape tokens i) ∧
          tokens[j]? = some head ∧ error = .unbalanced head.start ∧
          ∀ i k, CallAt config.shape tokens i k → ¬ Tried config.shape tokens i) ∧
      ((∀ j, HeadAt config.shape tokens j → Tried config.shape tokens j) →
        (∀ p, config.readOptions source = .error (.unbalanced p) →
          ∃ j head, tokens[j]? = some head ∧ head.start = p ∧ HeadAt config.shape tokens j ∧
            ∀ k, ¬ CallAt config.shape tokens j k) ∧
        ((∀ j, HeadAt config.shape tokens j → ∃ k, CallAt config.shape tokens j k) →
          ∃ options, config.readOptions source = .ok options)) := by
  intro tokens
  have hopen := (Lexer.closedBy config.closingFence).codeTokens_isBoundary source
  have hrefused (error : ExtractError) : config.readOptions source = .error error ↔
      ∃ j head, HeadAt config.shape tokens j ∧ (∀ i < j, ¬ HeadAt config.shape tokens i) ∧
        tokens[j]? = some head ∧ error = .unbalanced head.start ∧
        ∀ i k, CallAt config.shape tokens i k → ¬ Tried config.shape tokens i := by
    rw [Config.readOptions, readOptions_eq_error_iff, callAt?_eq_none_iff hopen]
    constructor
    · rintro ⟨hnone, head, hhead, rfl⟩
      obtain ⟨j, hj, hfirst, hget⟩ := headStart?_eq_some_iff.mp hhead
      exact ⟨j, head, hj, hfirst, hget, rfl, hnone⟩
    · rintro ⟨j, head, hj, hfirst, hget, rfl, hnone⟩
      exact ⟨hnone, head, headStart?_eq_some_iff.mpr ⟨j, hj, hfirst, hget⟩, rfl⟩
  refine ⟨hrefused, fun htried => ⟨fun p herror => ?_, fun hclosed => ?_⟩⟩
  · obtain ⟨j, head, hj, -, hget, hp, hnone⟩ := (hrefused _).mp herror
    cases hp
    exact ⟨j, head, hget, rfl, hj, fun k hcall => hnone j k hcall (htried j hj)⟩
  · cases houtcome : config.readOptions source with
    | ok options => exact ⟨options, rfl⟩
    | error error =>
      obtain ⟨j, head, hj, -, -, -, hnone⟩ := (hrefused _).mp houtcome
      obtain ⟨k, hcall⟩ := hclosed j hj
      exact absurd (htried j hj) (hnone j k hcall)

/-- The head of a call in the arguments of another is a candidate as the first head is. Code with
both of them is refused when neither is closed, and not when both are. -/
theorem Config.readOptions_refuses_nested :
    let config : Config := {}
    let lexer := Lexer.closedBy config.closingFence
    let opened := "opts_chunk$set(a = opts_chunk$set(b".toList
    let closed := "opts_chunk$set(a = opts_chunk$set(b))".toList
    (∀ j, HeadAt config.shape (lexer.codeTokens opened) j →
        Tried config.shape (lexer.codeTokens opened) j) ∧
      config.readOptions opened = .error (.unbalanced ⟨0, 0⟩) ∧
      (∃ j head, (lexer.codeTokens opened)[j]? = some head ∧ head.start = ⟨0, 0⟩ ∧
        HeadAt config.shape (lexer.codeTokens opened) j ∧
          ∀ k, ¬ CallAt config.shape (lexer.codeTokens opened) j k) ∧
      (∀ j, HeadAt config.shape (lexer.codeTokens closed) j →
        Tried config.shape (lexer.codeTokens closed) j ∧
          ∃ k, CallAt config.shape (lexer.codeTokens closed) j k) ∧
      ∃ options, config.readOptions closed = .ok options := by
  intro config lexer opened closed
  have hopened : ∀ j < (lexer.codeTokens opened).length,
      HeadAt config.shape (lexer.codeTokens opened) j →
        ∀ i < j, ¬ TakesAlong config.shape (lexer.codeTokens opened) i j := by
    decide +kernel
  have htried : ∀ j, HeadAt config.shape (lexer.codeTokens opened) j →
      Tried config.shape (lexer.codeTokens opened) j :=
    fun j hj => tried_of_not_takesAlong (hopened j hj.lt_length hj)
  have hrefused : config.readOptions opened = .error (.unbalanced ⟨0, 0⟩) := by decide +kernel
  have hclosed : ∀ j < (lexer.codeTokens closed).length,
      HeadAt config.shape (lexer.codeTokens closed) j →
        (∀ i < j, ¬ TakesAlong config.shape (lexer.codeTokens closed) i j) ∧
          ∃ k < (lexer.codeTokens closed).length,
            CallAt config.shape (lexer.codeTokens closed) j k := by
    decide +kernel
  have hcalls : ∀ j, HeadAt config.shape (lexer.codeTokens closed) j →
      Tried config.shape (lexer.codeTokens closed) j ∧
        ∃ k, CallAt config.shape (lexer.codeTokens closed) j k := by
    intro j hj
    obtain ⟨hcandidate, k, -, hcall⟩ := hclosed j hj.lt_length hj
    exact ⟨tried_of_not_takesAlong hcandidate, k, hcall⟩
  refine ⟨htried, hrefused, ?_, hcalls, ?_⟩
  · exact ((config.readOptions_refuses opened).2 htried).1 _ hrefused
  · exact ((config.readOptions_refuses closed).2 fun j hj => (hcalls j hj).1).2
      fun j hj => (hcalls j hj).2

/-- An object in front of a call takes its object along: the call is closed, as every call in the
code is, and yet it is refused as one that is not. -/
theorem Config.readOptions_refuses_closed :
    let config : Config := {}
    let source := "opts_chunk$opts_chunk$set()".toList
    let tokens := (Lexer.closedBy config.closingFence).codeTokens source
    config.readOptions source = .error (.unbalanced ⟨0, 11⟩) ∧
      tokens[2]?.map (·.start) = some ⟨0, 11⟩ ∧ CallAt config.shape tokens 2 6 ∧
      ∀ j, HeadAt config.shape tokens j → ∃ k, CallAt config.shape tokens j k := by
  intro config source tokens
  have hclosed : CallAt config.shape tokens 2 6 := by decide +kernel
  refine ⟨by decide +kernel, by decide +kernel, hclosed, fun j hj => ?_⟩
  have hlength : tokens.length = 7 := by decide +kernel
  have hlt := hj.lt_length
  have hone : ∀ j < 7, HeadAt config.shape tokens j → j = 2 := by decide +kernel
  obtain rfl := hone j (by omega) hj
  exact ⟨6, hclosed⟩

end RmdOptions
