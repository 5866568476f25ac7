import Mathlib.Tactic.MkIffOfInductiveProp
import RmdOptions.Proofs.Token.Brackets
import RmdOptions.Proofs.Token.Tiling

/-!
# What the search finds, and what it misses

What the search finds is a call, from its first token to the bracket that closes it, and nothing in
between ends the chunk. The search does not find every call: a candidate that is given up takes the
token that did not fit along, and that token may have been the object of another call. So a call is
missed only when one of the three tokens before it is a candidate too.

* `Balances`, `Cursor.closingOffset?_eq_some_iff` — the round bracket that closes another;
* `CallAt` — a call from one index to another, said without the search;
* `CallAt.of_callAt?`, `CallAt.isShadowed` — a search in a list is sound, and what it misses;
* `InOrder`, `Lexer.inOrder` — the order of tokens, which what is read from a text has;
* `locate_finds_or_misses` — the same for a search with a cursor.
-/

namespace RmdOptions

variable {shape : CallShape} {ts : List Token} {t : Token} {rest : List Token} {depth i j k n : Nat}

/-! ## Round brackets -/

/-- Round brackets are closed in some tokens, `depth` of them having been opened before: from the
left, never more are closed than are open, and in the end all are. -/
structure Balances (depth : Nat) (ts : List Token) : Prop where
  /-- on the way, a bracket that is closed is open -/
  nested : ∀ front, front <+: ts → countBracket [')'] front ≤ depth + countBracket ['('] front
  /-- in the end, none is open -/
  closed : countBracket [')'] ts = depth + countBracket ['('] ts

instance (depth : Nat) (ts : List Token) : Decidable (Balances depth ts) :=
  decidable_of_iff
    ((∀ front ∈ ts.inits, countBracket [')'] front ≤ depth + countBracket ['('] front) ∧
      countBracket [')'] ts = depth + countBracket ['('] ts)
    ⟨fun h => ⟨fun front hfront => h.1 front ((List.mem_inits front ts).mpr hfront), h.2⟩,
      fun h => ⟨fun front hfront => h.nested front ((List.mem_inits front ts).mp hfront), h.closed⟩⟩

theorem balances_iff : Balances depth ts ↔ Balanced ['('] [')'] depth ts :=
  ⟨fun h => ⟨h.nested, h.closed⟩, fun h => ⟨h.nested, h.closed⟩⟩

/-- The search for a closing round bracket finds the one that belongs there. -/
theorem Cursor.closingOffset?_eq_some_iff :
    closingOffset? ['('] [')'] depth ts = some k ↔
      HasToken ts k .punctuation [')'] ∧ (∀ u ∈ ts.take k, u.isBoundary = false) ∧
        Balances depth (ts.take k) := by
  rw [balances_iff]
  exact closingOffset?_eq_some_iff_balanced (by decide)

/-! ## Calls -/

/-- A call from the object at index `j` to the closing bracket at index `k`. -/
@[mk_iff]
structure CallAt (shape : CallShape) (ts : List Token) (j k : Nat) : Prop where
  /-- the object -/
  object : HasToken ts j .identifier shape.object
  /-- the dollar behind it -/
  dollar : HasToken ts (j + 1) .operator ['$']
  /-- the method -/
  method : HasToken ts (j + 2) .identifier shape.method
  /-- the bracket that opens the arguments -/
  bracket : HasToken ts (j + 3) .punctuation ['(']
  /-- the bracket at the end stands behind that one -/
  lt : j + 3 < k
  /-- it is a closing bracket -/
  close : HasToken ts k .punctuation [')']
  /-- and what it closes is the bracket that opens the arguments -/
  inside : Balances 0 ((ts.take k).drop (j + 4))

instance (shape : CallShape) (ts : List Token) (j k : Nat) : Decidable (CallAt shape ts j k) :=
  decidable_of_iff' _ (callAt_iff ..)

/-- An object stands in one of the three places before an index, from index `i` on. -/
def IsShadowed (shape : CallShape) (ts : List Token) (i j : Nat) : Prop :=
  ∃ m, i ≤ m ∧ m < j ∧ j ≤ m + 3 ∧ HasToken ts m .identifier shape.object

/-- Behind the first `n` tokens, a call has its indexes from there on. -/
theorem callAt_drop_iff : CallAt shape (ts.drop n) j k ↔ CallAt shape ts (n + j) (n + k) := by
  have hinside : ((ts.drop n).take k).drop (j + 4) = (ts.take (n + k)).drop (n + j + 4) := by
    rw [List.take_drop, List.drop_drop, Nat.add_assoc]
  constructor
  · rintro ⟨hobject, hdollar, hmethod, hbracket, hlt, hclose, hbalances⟩
    rw [hasToken_drop_iff] at hobject hdollar hmethod hbracket hclose
    rw [hinside] at hbalances
    exact ⟨hobject, hdollar, hmethod, hbracket, by omega, hclose, hbalances⟩
  · rintro ⟨hobject, hdollar, hmethod, hbracket, hlt, hclose, hbalances⟩
    rw [← hinside] at hbalances
    exact ⟨hasToken_drop_iff.mpr hobject, hasToken_drop_iff.mpr hdollar,
      hasToken_drop_iff.mpr hmethod, hasToken_drop_iff.mpr hbracket, by omega,
      hasToken_drop_iff.mpr hclose, hbalances⟩

theorem IsShadowed.of_drop (h : IsShadowed shape (ts.drop n) i j) :
    IsShadowed shape ts (n + i) (n + j) := by
  obtain ⟨m, him, hmj, hjm, hobject⟩ := h
  exact ⟨n + m, by omega, by omega, by omega, hasToken_drop_iff.mp hobject⟩

/-! ## The first token of a list -/

theorem followList_length_le (sequence : List Expected) (ts : List Token) :
    (followList sequence ts).2 ≤ sequence.length := by
  fun_induction followList sequence ts with
  | case1 => exact Nat.le_refl _
  | case2 => exact Nat.zero_le _
  | case3 => simp
  | case4 kind text more t rest _ _ ih => simpa using ih
  | case5 => simp

/-- The tokens that are followed, up to the first that does not fit, end no chunk. -/
theorem followList_open (sequence : List Expected) (ts : List Token)
    (h : (followList sequence ts).1 ≠ .stopped) :
    ∀ u ∈ ts.take (followList sequence ts).2, u.isBoundary = false := by
  fun_induction followList sequence ts with
  | case1 => simp
  | case2 => exact absurd rfl h
  | case3 => exact absurd rfl h
  | case4 kind text more t rest hboundary _ ih =>
    rw [List.take_succ_cons, List.forall_mem_cons]
    exact ⟨Bool.eq_false_iff.mpr hboundary, ih h⟩
  | case5 kind text more t rest hboundary =>
    rw [List.take_succ_cons, List.take_zero, List.forall_mem_cons]
    exact ⟨Bool.eq_false_iff.mpr hboundary, by simp⟩

/-- Following stops where a token is missing or ends the chunk. -/
theorem exists_of_followList_stopped {sequence : List Expected} {ts : List Token}
    (h : (followList sequence ts).1 = .stopped) :
    ∃ m < sequence.length, ∀ u, ts[m]? = some u → u.isBoundary = true := by
  fun_induction followList sequence ts with
  | case1 => cases h
  | case2 => exact ⟨0, by simp, by simp⟩
  | case3 kind text more t rest hboundary => exact ⟨0, by simp, by simpa using hboundary⟩
  | case4 kind text more t rest _ _ ih =>
    obtain ⟨m, hm, hu⟩ := ih h
    exact ⟨m + 1, by simpa using hm, by simpa using hu⟩
  | case5 => cases h

/-- A call that starts with the first token is found there. -/
theorem CallAt.exists_finds (h : CallAt shape (t :: rest) 0 k)
    (hopen : OpenBetween (t :: rest) 0 k) : ∃ n k', Finds shape t rest n k' := by
  obtain ⟨dollar, hdollar, hdollaris⟩ := hasToken_succ_iff.mp h.dollar
  obtain ⟨method, hmethod, hmethodis⟩ := hasToken_succ_iff.mp h.method
  obtain ⟨bracket, hbracket, hbracketis⟩ := hasToken_succ_iff.mp h.bracket
  obtain ⟨more, rfl⟩ : ∃ more, rest = dollar :: method :: bracket :: more := by
    match rest with
    | _ :: _ :: _ :: more =>
      obtain rfl := Option.some.inj hdollar
      obtain rfl := Option.some.inj hmethod
      obtain rfl := Option.some.inj hbracket
      exact ⟨more, rfl⟩
  obtain ⟨k, rfl⟩ := Nat.exists_eq_add_of_le' h.lt
  have hobject := hasToken_zero_iff.mp h.object
  refine ⟨3, k, ?_, hobject, followList_continuation hdollaris hmethodis hbracketis more, ?_⟩
  · exact Bool.eq_false_iff.mp (Token.isBoundary_of_is hobject (by decide))
  · refine Cursor.closingOffset?_eq_some_iff.mpr ⟨?_, fun u hu => ?_, h.inside⟩
    · obtain ⟨close, hget, hclose⟩ := h.close
      exact ⟨close, hget, hclose⟩
    · have hshorter : more.take k <+: more.take (k + 1) :=
        List.take_prefix_take_left (Nat.le_succ k)
      refine hopen u ?_
      rw [List.drop_zero]
      simp only [Nat.zero_add, List.take_succ_cons, List.mem_cons]
      exact Or.inr (Or.inr (Or.inr (Or.inr (hshorter.subset hu))))

/-- What is found at the first token is a call. -/
theorem Finds.callAt (h : Finds shape t rest n k) :
    CallAt shape (t :: rest) 0 (n + k + 1) ∧ OpenBetween (t :: rest) 0 (n + k + 1) := by
  obtain ⟨hboundary, hobject, hfollow, hoffset⟩ := h
  obtain ⟨rfl, dollar, method, bracket, rest, rfl, hdollar, hmethod, hbracket⟩ :=
    followList_complete hfollow
  have hbehind : (dollar :: method :: bracket :: rest).drop 3 = rest := rfl
  rw [hbehind, Cursor.closingOffset?_eq_some_iff] at hoffset
  obtain ⟨⟨close, hget, hclose⟩, hopen, hbalances⟩ := hoffset
  have hk : 3 + k + 1 = k + 4 := by omega
  rw [hk]
  constructor
  · refine ⟨hasToken_zero_iff.mpr hobject, ?_, ?_, ?_, by omega, ?_, hbalances⟩
    · exact ⟨dollar, rfl, hdollar⟩
    · exact ⟨method, rfl, hmethod⟩
    · exact ⟨bracket, rfl, hbracket⟩
    · exact ⟨close, hget, hclose⟩
  · have hlast : rest.take (k + 1) = rest.take k ++ [close] := by
      rw [List.take_add_one, hget]
      rfl
    rw [OpenBetween, List.drop_zero]
    simp only [List.take_succ_cons, List.forall_mem_cons]
    refine ⟨Bool.eq_false_iff.mpr hboundary, Token.isBoundary_of_is hdollar (by decide),
      Token.isBoundary_of_is hmethod (by decide), Token.isBoundary_of_is hbracket (by decide), ?_⟩
    intro u hu
    have hu : u ∈ rest.take k ++ [close] := hlast ▸ hu
    rcases List.mem_append.mp hu with hu | hu
    · exact hopen u hu
    · rw [List.mem_singleton.mp hu]
      exact Token.isBoundary_of_is hclose (by decide)

/-- Where the search stops, no call starts at the first token or behind it. -/
theorem Stops.not_callAt (h : Stops shape t rest) (hcall : CallAt shape (t :: rest) j k) :
    ¬ OpenBetween (t :: rest) 0 k := by
  intro hopen
  have hlt := hcall.lt
  cases h with
  | boundary hboundary =>
    rw [hopen.isBoundary (Nat.le_refl 0) (Nat.zero_le k) rfl] at hboundary
    cases hboundary
  | stopped _ hfollow =>
    obtain ⟨m, hm, hboundary⟩ := exists_of_followList_stopped hfollow
    have hm : m < 3 := hm
    -- the token that stops the search is there, as the call goes on behind it
    obtain ⟨close, hget, -⟩ := hcall.close
    obtain ⟨hk, -⟩ := List.getElem?_eq_some_iff.mp hget
    rw [List.length_cons] at hk
    have hget : rest[m]? = some rest[m] := List.getElem?_eq_getElem (by omega)
    have hopen := hopen.isBoundary (m := m + 1) (u := rest[m]) (Nat.zero_le _) (by omega) hget
    rw [hboundary _ hget] at hopen
    cases hopen

namespace Passes

/-- No more tokens are passed over than a call has up to its bracket. -/
theorem le_three (h : Passes shape t rest n) : n ≤ 3 := by
  have hle := followList_length_le shape.continuation rest
  cases h with
  | other => exact Nat.zero_le _
  | broken _ _ hfollow => rwa [hfollow] at hle
  | unclosed _ _ hfollow => rwa [hfollow] at hle

/-- Other tokens are passed over with the first one only if that is an object. -/
theorem object (h : Passes shape t rest n) (hn : 0 < n) : t.is .identifier shape.object = true := by
  cases h with
  | other => exact absurd hn (Nat.lt_irrefl 0)
  | broken _ hobject => exact hobject
  | unclosed _ hobject => exact hobject

/-- What is passed over ends no chunk. -/
theorem isBoundary (h : Passes shape t rest n) :
    ∀ u ∈ t :: rest.take n, u.isBoundary = false := by
  have hopen := followList_open shape.continuation rest
  rw [List.forall_mem_cons]
  cases h with
  | other hboundary => exact ⟨Bool.eq_false_iff.mpr hboundary, by simp⟩
  | broken hboundary _ hfollow =>
    rw [hfollow] at hopen
    exact ⟨Bool.eq_false_iff.mpr hboundary, hopen (fun h => by cases h)⟩
  | unclosed hboundary _ hfollow =>
    rw [hfollow] at hopen
    exact ⟨Bool.eq_false_iff.mpr hboundary, hopen (fun h => by cases h)⟩

/-- A token that is passed over starts no call. -/
theorem not_finds (h : Passes shape t rest n) {n' : Nat} : ¬ Finds shape t rest n' k := by
  rintro ⟨-, hobject, hfollow, hoffset⟩
  cases h with
  | other _ hother => exact hother hobject
  | broken _ _ hbroken =>
    rw [hfollow] at hbroken
    cases hbroken
  | unclosed _ _ hunclosed hnone =>
    rw [hfollow] at hunclosed
    cases hunclosed
    rw [hoffset] at hnone
    cases hnone

end Passes

/-! ## The search in a list -/

/-- **What the search finds is a call**, and nothing up to its end ends the chunk. -/
theorem CallAt.of_callAt? (h : callAt? shape ts = some (j, k)) :
    CallAt shape ts j k ∧ OpenBetween ts 0 k := by
  generalize hsize : ts.length = size
  induction size using Nat.strongRecOn generalizing ts j k with
  | ind size ih =>
    subst hsize
    cases ts with
    | nil => simp [callAt?] at h
    | cons t rest =>
      rcases callAt?_cases shape t rest with hstops | ⟨n, k', hfinds⟩ | ⟨n, hpasses⟩
      · rw [hstops.callAt?_eq] at h
        cases h
      · rw [hfinds.callAt?_eq] at h
        cases h
        exact hfinds.callAt
      · rw [hpasses.callAt?_eq, later, Option.map_eq_some_iff] at h
        obtain ⟨⟨j', k'⟩, hrest, hat⟩ := h
        obtain ⟨rfl, rfl⟩ := Prod.mk.inj hat
        dsimp only
        obtain ⟨hcall, hopen⟩ := ih (rest.drop n).length (by
          rw [List.length_drop, List.length_cons]
          omega) hrest rfl
        rw [← List.drop_succ_cons (a := t), callAt_drop_iff, Nat.add_comm _ j',
          Nat.add_comm _ k'] at hcall
        refine ⟨hcall, fun u hu => ?_⟩
        rw [List.drop_zero, Nat.add_right_comm, ← Nat.add_comm (n + 1), List.take_add,
          List.take_succ_cons, List.drop_succ_cons] at hu
        rcases List.mem_append.mp hu with hu | hu
        · exact hpasses.isBoundary u hu
        · exact hopen u (by rwa [List.drop_zero])

/-- **A call that the search misses is shadowed**: when none is found, or only one further down, a
candidate in front of the call has taken its object along. -/
theorem CallAt.isShadowed (h : CallAt shape ts j k) (hopen : OpenBetween ts 0 k)
    (hmissed : ∀ at', callAt? shape ts = some at' → j < at'.1) : IsShadowed shape ts 0 j := by
  generalize hsize : ts.length = size
  induction size using Nat.strongRecOn generalizing ts j k with
  | ind size ih =>
    subst hsize
    cases ts with
    | nil =>
      obtain ⟨u, hu, -⟩ := h.object
      simp at hu
    | cons t rest =>
      rcases callAt?_cases shape t rest with hstops | ⟨n, k', hfinds⟩ | ⟨n, hpasses⟩
      · exact absurd hopen (hstops.not_callAt h)
      · exact absurd (hmissed _ hfinds.callAt?_eq) (Nat.not_lt_zero j)
      · rcases Nat.eq_zero_or_pos j with rfl | hj
        · obtain ⟨n', k', hfinds⟩ := h.exists_finds hopen
          exact absurd hfinds hpasses.not_finds
        · by_cases hn : j ≤ n
          · -- the first token is the candidate that has taken the object along
            have hthree := hpasses.le_three
            have hobject : HasToken (t :: rest) 0 .identifier shape.object :=
              hasToken_zero_iff.mpr (hpasses.object (by omega))
            exact ⟨0, Nat.le_refl 0, hj, by omega, hobject⟩
          · obtain ⟨j', rfl⟩ : ∃ j', j = n + 1 + j' := ⟨j - (n + 1), by omega⟩
            have hlt := h.lt
            obtain ⟨k', rfl⟩ : ∃ k', k = n + 1 + k' := ⟨k - (n + 1), by omega⟩
            have hrest : CallAt shape (rest.drop n) j' k' := by
              rwa [← List.drop_succ_cons (a := t), callAt_drop_iff]
            have hopen' : OpenBetween (rest.drop n) 0 k' := by
              rw [← List.drop_succ_cons (a := t), openBetween_drop_iff]
              exact hopen.mono (Nat.zero_le _)
            have hshadowed := ih (rest.drop n).length (by
              rw [List.length_drop, List.length_cons]
              omega) hrest hopen' (fun at' hat => by
                have hlater := hpasses.callAt?_eq
                rw [hat] at hlater
                have := hmissed _ hlater
                dsimp only at this
                omega) rfl
            rw [← List.drop_succ_cons (a := t)] at hshadowed
            obtain ⟨m, -, hm⟩ := hshadowed.of_drop
            exact ⟨m, Nat.zero_le m, hm⟩

/-! ## The search with a cursor -/

/-- The order of a document: no token starts after its end, or before the end of the one before. -/
structure InOrder (ts : List Token) : Prop where
  /-- a token ends no earlier than it starts -/
  start_le_stop : ∀ t ∈ ts, t.start ≤ t.stop
  /-- the next one starts no earlier than it ends -/
  stop_le_start : ts.IsChain (fun t u => t.stop ≤ u.start)

/-- What stands further on ends further on. -/
theorem InOrder.start_le_stop_of_le (h : InOrder ts) (hij : i ≤ j) {t u : Token}
    (ht : ts[i]? = some t) (hu : ts[j]? = some u) : t.start ≤ u.stop := by
  induction hij generalizing u with
  | refl =>
    obtain rfl := Option.some.inj (ht.symm.trans hu)
    exact h.start_le_stop t (List.mem_of_getElem? ht)
  | @step m him ih =>
    obtain ⟨hm, rfl⟩ := List.getElem?_eq_some_iff.mp hu
    have hbefore := ih (List.getElem?_eq_getElem (by omega))
    have hnext := List.isChain_iff_getElem.mp h.stop_le_start m hm
    exact Position.le_trans (Position.le_trans hbefore hnext)
      (h.start_le_stop _ (List.getElem_mem hm))

/-- Tokens that account for a text stand in order. -/
theorem Accounts.inOrder {t : Text} (h : Accounts t ts) : InOrder ts :=
  ⟨fun u hu => (h.places u hu).2.2, h.stop_le_start.isChain⟩

/-- So do those that are read from a document, and from code. -/
theorem Lexer.inOrder (lexer : Lexer) (t : Text) :
    InOrder (lexer.documentTokens t) ∧ InOrder (lexer.codeTokens t) :=
  ⟨(lexer.documentTokens_tiles t).accounts.inOrder, (lexer.codeTokens_tiles t).accounts.inOrder⟩

/-- The two tokens before an index are a package and the colons behind it. -/
def IsQualified (shape : CallShape) (ts : List Token) (j : Nat) : Prop :=
  ∃ i, j = i + 2 ∧ HasToken ts i .identifier shape.package ∧
    (HasToken ts (i + 1) .operator [':', ':'] ∨ HasToken ts (i + 1) .operator [':', ':', ':'])

/-- A span covers a call from one index to another, with the package in front of it if it has
one. -/
structure CoversCall (shape : CallShape) (ts : List Token) (j k : Nat) (span : Span) : Prop where
  /-- the span of a qualified call starts with the package -/
  qualified : IsQualified shape ts j → ts[j - 2]?.map (·.start) = some span.start
  /-- that of another one starts with the object -/
  bare : ¬ IsQualified shape ts j → ts[j]?.map (·.start) = some span.start
  /-- it ends with the bracket -/
  stop : ts[k]?.map (·.stop) = some span.stop

/-- Looking back from an index finds the package two tokens before it. -/
theorem qualifier?_eq_some_iff (hj : j < ts.length) :
    qualifier? shape (ts.take j).reverse = some t ↔
      IsQualified shape ts j ∧ ts[j - 2]? = some t := by
  match j with
  | 0 => simp [qualifier?, IsQualified]
  | 1 =>
    rw [List.take_succ_eq_append_getElem (by omega)]
    simp [qualifier?, IsQualified]
  | i + 2 =>
    have hcolons : i + 1 < ts.length := by omega
    have hpackage : i < ts.length := by omega
    rw [List.take_succ_eq_append_getElem hcolons, List.take_succ_eq_append_getElem hpackage]
    simp only [List.reverse_append, List.reverse_singleton, List.singleton_append, qualifier?]
    have hqualified : IsQualified shape ts (i + 2) ↔
        ((ts[i + 1].is .operator [':', ':'] || ts[i + 1].is .operator [':', ':', ':']) &&
          ts[i].is .identifier shape.package) = true := by
      rw [Bool.and_eq_true, Bool.or_eq_true, and_comm]
      simp [IsQualified, HasToken, List.getElem?_eq_getElem hcolons,
        List.getElem?_eq_getElem hpackage]
    rw [hqualified, Nat.add_sub_cancel, List.getElem?_eq_getElem hpackage]
    split
    · next h => simp [h]
    · next h => simp [h]

/-- The span of a call is there, and covers it. -/
theorem CallAt.exists_coversCall (h : CallAt shape ts j k) (hordered : InOrder ts) :
    ∃ span, shape.spanAt ts (j, k) = some span ∧ CoversCall shape ts j k span := by
  obtain ⟨object, hobject, -⟩ := h.object
  obtain ⟨close, hclose, -⟩ := h.close
  have hlt := h.lt
  obtain ⟨hj, -⟩ := List.getElem?_eq_some_iff.mp hobject
  rw [CallShape.spanAt]
  dsimp only
  rw [hobject, hclose]
  refine ⟨_, rfl, ?_⟩
  by_cases hqualified : IsQualified shape ts j
  · obtain ⟨i, rfl, ⟨package, hpackage, -⟩, -⟩ := id hqualified
    have hfront := (qualifier?_eq_some_iff hj).mpr ⟨hqualified, hpackage⟩
    have hle : package.start ≤ close.stop :=
      hordered.start_le_stop_of_le (by omega) hpackage hclose
    rw [hfront, Option.map_some, Option.getD_some]
    refine ⟨fun _ => ?_, fun hbare => absurd hqualified hbare, ?_⟩
    · rw [Nat.add_sub_cancel, hpackage, Span.ofEnds_start_of_le hle]
      rfl
    · rw [hclose, Span.ofEnds_stop_of_le hle]
      rfl
  · have hfront : qualifier? shape (ts.take j).reverse = none :=
      Option.eq_none_iff_forall_ne_some.mpr fun package hpackage =>
        hqualified ((qualifier?_eq_some_iff hj).mp hpackage).1
    have hle : object.start ≤ close.stop :=
      hordered.start_le_stop_of_le (by omega) hobject hclose
    rw [hfront, Option.map_none, Option.getD_none]
    refine ⟨fun h => absurd h hqualified, fun _ => ?_, ?_⟩
    · rw [hobject, Span.ofEnds_start_of_le hle]
      rfl
    · rw [hclose, Span.ofEnds_stop_of_le hle]
      rfl

/-- A call behind the cursor that the search misses is shadowed. -/
theorem CallAt.isShadowed_of_later (h : CallAt shape ts j k) (hnj : n ≤ j)
    (hopen : OpenBetween ts n k)
    (hmissed : ∀ at', later n (callAt? shape (ts.drop n)) = some at' → j < at'.1) :
    IsShadowed shape ts n j := by
  have hlt := h.lt
  obtain ⟨j, rfl⟩ := Nat.exists_eq_add_of_le hnj
  obtain ⟨k, rfl⟩ := Nat.exists_eq_add_of_le (show n ≤ k by omega)
  have hcall := callAt_drop_iff.mpr h
  have hopen' : OpenBetween (ts.drop n) 0 k := openBetween_drop_iff.mpr hopen
  refine IsShadowed.of_drop (i := 0) (hcall.isShadowed hopen' fun at' hat => ?_)
  have := hmissed (at'.1 + n, at'.2 + n) (by rw [hat, later_some])
  dsimp only at this
  omega

/-- **What the search finds, and what it misses.** In tokens that stand in order, what the search
finds is the span of a call ahead, on whose closing bracket the cursor then stands. A call before
that one, or any call when none is found, is shadowed if the chunk goes on to its end. -/
theorem locate_finds_or_misses {tokens : List Token} (hordered : InOrder tokens)
    (shape : CallShape) (c : Cursor tokens) (hc : c.place ≤ tokens.length) :
    (∀ span, (locate shape c).1 = some span →
      ∃ j k, c.place ≤ j ∧ CallAt shape tokens j k ∧ OpenBetween tokens c.place k ∧
        CoversCall shape tokens j k span ∧ (locate shape c).2.index? = some k ∧
        ∀ j' k', c.place ≤ j' → j' < j → CallAt shape tokens j' k' →
          OpenBetween tokens c.place k' → IsShadowed shape tokens c.place j') ∧
    ((locate shape c).1 = none →
      ∀ j' k', c.place ≤ j' → CallAt shape tokens j' k' →
        OpenBetween tokens c.place k' → IsShadowed shape tokens c.place j') := by
  obtain ⟨hspan, hplace⟩ := locate_eq shape c hc
  cases hat : callAt? shape (tokens.drop c.place) with
  | none =>
    rw [hat, later_none, Option.bind_none] at hspan
    refine ⟨fun span h => ?_, fun _ j' k' hj' hcall hopen => ?_⟩
    · rw [hspan] at h
      cases h
    · exact hcall.isShadowed_of_later hj' hopen (by simp [hat])
  | some at' =>
    obtain ⟨j, k⟩ := at'
    obtain ⟨hcall, hopen⟩ := CallAt.of_callAt? hat
    rw [callAt_drop_iff] at hcall
    rw [openBetween_drop_iff, Nat.add_zero] at hopen
    obtain ⟨span, hspanAt, hcovers⟩ := hcall.exists_coversCall hordered
    rw [hat, later_some, Nat.add_comm j, Nat.add_comm k] at hspan hplace
    rw [Option.bind_some, hspanAt] at hspan
    refine ⟨fun span' h => ?_, fun h => absurd (hspan.symm.trans h) (by simp)⟩
    obtain rfl : span = span' := Option.some.inj (hspan.symm.trans h)
    refine ⟨c.place + j, c.place + k, Nat.le_add_right _ _, hcall, hopen, hcovers, ?_, ?_⟩
    · obtain ⟨close, hclose, -⟩ := hcall.close
      obtain ⟨hk, -⟩ := List.getElem?_eq_some_iff.mp hclose
      have hend := hplace _ rfl
      dsimp only at hend
      rw [Cursor.index?, if_pos ⟨by omega, by omega⟩, hend, Nat.add_sub_cancel]
    · intro j' k' hj' hlt hcall' hopen'
      refine hcall'.isShadowed_of_later hj' hopen' fun at' h => ?_
      rw [hat, later_some] at h
      obtain rfl := Option.some.inj h
      dsimp only
      omega

/-- The tokens of a line with two calls, the first of them behind another object. -/
def overlappingCalls : List Token := (Lexer.closedBy []).codeTokens "o$o$m(); p::o$m()".toList

/-- The first call of the line is missed, as the object before it is a candidate that takes it
along. The second one is found, with its package. -/
theorem locate_finds_or_misses_sample :
    let shape : CallShape := ⟨['p'], ['o'], ['m']⟩
    let found := locate shape (Cursor.start overlappingCalls)
    found.1 = some ⟨⟨0, 9⟩, ⟨0, 17⟩, by decide⟩ ∧ found.2.index? = some 14 ∧
      CallAt shape overlappingCalls 2 6 ∧ OpenBetween overlappingCalls 0 6 ∧
        IsShadowed shape overlappingCalls 0 2 := by
  intro shape found
  have hordered : InOrder overlappingCalls := ⟨by decide +kernel, by decide +kernel⟩
  have hspan : found.1 = some ⟨⟨0, 9⟩, ⟨0, 17⟩, by decide⟩ := by decide +kernel
  have hmissed : CallAt shape overlappingCalls 2 6 := by decide +kernel
  have hopen : OpenBetween overlappingCalls 0 6 := by decide +kernel
  obtain ⟨hfinds, -⟩ := locate_finds_or_misses hordered shape (Cursor.start overlappingCalls)
    (Nat.zero_le _)
  obtain ⟨j, k, -, hcall, -, -, hindex, hmisses⟩ := hfinds _ hspan
  obtain rfl : k = 14 := by
    have hend : found.2.index? = some 14 := by decide +kernel
    exact Option.some.inj (hindex.symm.trans hend)
  have hlater : 2 < j := by
    by_contra hle
    have hnone : ∀ j < 3, ¬ CallAt shape overlappingCalls j 14 := by decide +kernel
    exact hnone j (by omega) hcall
  exact ⟨hspan, hindex, hmissed, hopen, hmisses 2 6 (Nat.zero_le 2) hlater hmissed hopen⟩

end RmdOptions
