import RmdOptions.Proofs.Call.Search

/-!
# What the search for the options call does not see

The search looks at the kinds and texts of tokens, and at few of them: it takes two tokens for one
another unless one of them is a boundary, a part of the call or a round bracket and the other is
not. What stands behind a boundary does not matter to it either.

* `Alike`, `callAt?_congr` — tokens that the search does not tell apart;
* `callAt?_boundary` — the end of the chunk is the end of the search;
* `callAt?_replace` — when a call is found, the tokens from it on can be replaced;
* `CallHead`, `CallHead.callAt?_eq` — a call that is written out in full is found at once.
-/

namespace RmdOptions

variable {shape : CallShape} {ts us : List Token} {depth : Nat}

/-- The search for a call takes one token for the other. -/
structure Alike (shape : CallShape) (a b : Token) : Prop where
  /-- both are boundaries, or neither is -/
  boundary : a.isBoundary = b.isBoundary
  /-- both are the object of a call, or neither is -/
  object : a.is .identifier shape.object = b.is .identifier shape.object
  /-- both are the same part of a call behind the object -/
  expected : ∀ e ∈ shape.continuation, a.is e.1 e.2 = b.is e.1 e.2
  /-- both close a round bracket, or neither does -/
  closing : a.is .punctuation [')'] = b.is .punctuation [')']

theorem Alike.opening {a b : Token} (h : Alike shape a b) :
    a.is .punctuation ['('] = b.is .punctuation ['('] :=
  h.expected (.punctuation, ['(']) (by simp [CallShape.continuation])

/-- Where tokens stand does not matter. -/
theorem Alike.of_eq {a b : Token} (hkind : a.kind = b.kind) (htext : a.text = b.text) :
    Alike shape a b := by
  have his (kind : TokenKind) (text : Text) : a.is kind text = b.is kind text := by
    rw [Token.is, Token.is, hkind, htext]
  exact ⟨by rw [Token.isBoundary, Token.isBoundary, hkind], his _ _, fun _ _ => his _ _, his _ _⟩

/-- One operator is as good as another, but for the dollar. -/
theorem Alike.operators {a b : Token} (ha : a.kind = .operator) (hb : b.kind = .operator)
    (hdollar : a.text ≠ ['$'] ∧ b.text ≠ ['$']) : Alike shape a b where
  boundary := by simp [Token.isBoundary, ha, hb]
  object := by simp [Token.is, ha, hb]
  expected := by simp [CallShape.continuation, Token.is, ha, hb, hdollar.1, hdollar.2]
  closing := by simp [Token.is, ha, hb]

theorem Alike.refl (t : Token) : Alike shape t t := Alike.of_eq rfl rfl

/-! ## Tokens that are alike -/

theorem closingOffset?_congr (h : List.Forall₂ (Alike shape) ts us) :
    Cursor.closingOffset? ['('] [')'] depth ts = Cursor.closingOffset? ['('] [')'] depth us := by
  induction h generalizing depth with
  | nil => rfl
  | cons hab _ ih =>
    rw [Cursor.closingOffset?, Cursor.closingOffset?, hab.boundary, hab.opening, hab.closing, ih,
      ih, ih]

theorem followList_congr {sequence : List Expected} (hsequence : sequence ⊆ shape.continuation)
    (h : List.Forall₂ (Alike shape) ts us) : followList sequence ts = followList sequence us := by
  induction sequence generalizing ts us with
  | nil => rfl
  | cons expected more ih =>
    obtain ⟨kind, text⟩ := expected
    have hmore : more ⊆ shape.continuation := fun e he => hsequence (List.mem_cons_of_mem _ he)
    cases h with
    | nil => rfl
    | cons hab htail =>
      rw [followList, followList, hab.boundary, hab.expected _ (hsequence List.mem_cons_self),
        ih hmore htail]

theorem callAt?_congr (h : List.Forall₂ (Alike shape) ts us) :
    callAt? shape ts = callAt? shape us := by
  generalize hlength : ts.length = length
  induction length using Nat.strongRecOn generalizing ts us with
  | ind length ih =>
    subst hlength
    cases h with
    | nil => rfl
    | @cons a b ts us hab htail =>
      -- whatever is passed over, the tokens behind it are alike again
      have hrest (n : Nat) : callAt? shape (ts.drop n) = callAt? shape (us.drop n) := by
        refine ih _ ?_ (List.forall₂_drop n htail) rfl
        rw [List.length_drop, List.length_cons]
        omega
      have hclosing (n : Nat) : Cursor.closingOffset? ['('] [')'] 0 (ts.drop n) =
          Cursor.closingOffset? ['('] [')'] 0 (us.drop n) :=
        closingOffset?_congr (List.forall₂_drop n htail)
      have hnext := hrest 0
      rw [List.drop_zero, List.drop_zero] at hnext
      rw [callAt?, callAt?, hab.boundary, hab.object, hnext,
        followList_congr (List.Subset.refl _) htail]
      simp only [hrest, hclosing]

/-! ## The end of the chunk -/

theorem closingOffset?_boundary (hts : ∀ t ∈ ts, t.isBoundary = false) {boundary : Token}
    (h : boundary.isBoundary = true) (us : List Token) :
    Cursor.closingOffset? ['('] [')'] depth (ts ++ boundary :: us) =
      Cursor.closingOffset? ['('] [')'] depth ts := by
  induction ts generalizing depth with
  | nil => simp [Cursor.closingOffset?, h]
  | cons t ts ih =>
    have ih (depth : Nat) := @ih depth fun t ht => hts t (List.mem_cons_of_mem _ ht)
    rw [List.cons_append, Cursor.closingOffset?, Cursor.closingOffset?, ih, ih, ih]

theorem followList_boundary (sequence : List Expected) (hts : ∀ t ∈ ts, t.isBoundary = false)
    {boundary : Token} (h : boundary.isBoundary = true) (us : List Token) :
    (followList sequence (ts ++ boundary :: us)).1 = (followList sequence ts).1 ∧
      ((followList sequence ts).1 ≠ .stopped →
        (followList sequence (ts ++ boundary :: us)).2 = (followList sequence ts).2) := by
  induction sequence generalizing ts with
  | nil => exact ⟨rfl, fun _ => rfl⟩
  | cons expected more ih =>
    obtain ⟨kind, text⟩ := expected
    cases ts with
    | nil => simp [followList, h]
    | cons t ts =>
      obtain ⟨hprogress, hsteps⟩ := ih fun t ht => hts t (List.mem_cons_of_mem _ ht)
      rw [List.cons_append, followList, followList]
      split
      · exact ⟨rfl, fun _ => rfl⟩
      · split
        · exact ⟨hprogress, fun hne => congrArg (· + 1) (hsteps hne)⟩
        · exact ⟨rfl, fun _ => rfl⟩

/-- What stands behind the end of the chunk is not searched. -/
theorem callAt?_boundary (hts : ∀ t ∈ ts, t.isBoundary = false) {boundary : Token}
    (h : boundary.isBoundary = true) (us : List Token) :
    callAt? shape (ts ++ boundary :: us) = callAt? shape ts := by
  generalize hlength : ts.length = length
  induction length using Nat.strongRecOn generalizing ts with
  | ind length ih =>
    subst hlength
    cases ts with
    | nil => simp [callAt?, h]
    | cons t ts =>
      have htail : ∀ t ∈ ts, t.isBoundary = false := fun t ht => hts t (List.mem_cons_of_mem _ ht)
      have hdrop (n : Nat) : ∀ t ∈ ts.drop n, t.isBoundary = false := fun t ht =>
        htail t (List.mem_of_mem_drop ht)
      have hrest (n : Nat) : callAt? shape (ts.drop n ++ boundary :: us) =
          callAt? shape (ts.drop n) := by
        refine ih _ ?_ (hdrop n) rfl
        rw [List.length_drop, List.length_cons]
        omega
      obtain ⟨hprogress, hsteps⟩ := followList_boundary shape.continuation htail h us
      have hle := followList_le shape.continuation ts
      rw [List.cons_append, callAt?, callAt?]
      dsimp only
      rw [hprogress]
      split
      · rfl
      · split
        · cases hfollowed : (followList shape.continuation ts).1 with
          | stopped => rfl
          | broken =>
            have hsteps := hsteps (by rw [hfollowed]; decide)
            rw [hsteps]
            dsimp only
            rw [List.drop_append_of_le_length hle, hrest]
          | complete =>
            have hsteps := hsteps (by rw [hfollowed]; decide)
            rw [hsteps]
            dsimp only
            rw [List.drop_append_of_le_length hle, hrest, closingOffset?_boundary (hdrop _) h]
        · have hnext := hrest 0
          rw [List.drop_zero] at hnext
          rw [hnext]

/-! ## Replacing what is found -/

/-- Steps that end within some tokens do not depend on what is behind these. -/
theorem followList_append {sequence : List Expected} {progress : Progress} {n : Nat}
    {vs : List Token} (h : followList sequence (ts ++ vs) = (progress, n))
    (hne : progress ≠ .stopped) (hn : n ≤ ts.length) (ws : List Token) :
    followList sequence (ts ++ ws) = (progress, n) := by
  induction sequence generalizing ts n with
  | nil => simpa [followList] using h
  | cons expected more ih =>
    obtain ⟨kind, text⟩ := expected
    cases ts with
    | nil =>
      -- nothing is looked at only when nothing is left, and then the steps stop
      obtain rfl : n = 0 := Nat.le_zero.mp hn
      cases vs with
      | nil =>
        cases h
        exact absurd rfl hne
      | cons v vs =>
        rw [List.nil_append, followList] at h
        split at h
        · cases h
        · split at h <;> simp at h
    | cons t ts =>
      rw [List.cons_append, followList] at h ⊢
      split at h
      · cases h
        exact absurd rfl hne
      · next hboundary =>
        rw [if_neg hboundary]
        split at h
        · next his =>
          rw [if_pos his]
          obtain ⟨rfl, rfl⟩ := Prod.mk.inj h
          rw [ih (n := (followList more (ts ++ vs)).2) rfl (by simpa using hn)]
        · next his => rw [if_neg his, ← h]

/-- A bracket that stays open is still open when what is behind opens at least as many. -/
theorem closingOffset?_append_none {vs ws : List Token}
    (hvs : ∀ depth, Cursor.closingOffset? ['('] [')'] depth vs = none →
      Cursor.closingOffset? ['('] [')'] depth ws = none)
    (h : Cursor.closingOffset? ['('] [')'] depth (ts ++ vs) = none) :
    Cursor.closingOffset? ['('] [')'] depth (ts ++ ws) = none := by
  induction ts generalizing depth with
  | nil => exact hvs depth h
  | cons t ts ih =>
    rw [List.cons_append, Cursor.closingOffset?] at h ⊢
    split at h
    · next hboundary => rw [if_pos hboundary]
    · next hboundary =>
      rw [if_neg hboundary]
      split at h
      · next hopening =>
        rw [if_pos hopening, ih (Option.map_eq_none_iff.mp h)]
        rfl
      · next hopening =>
        rw [if_neg hopening]
        split at h
        · next hclosing =>
          rw [if_pos hclosing]
          split at h
          · cases h
          · next hdepth =>
            rw [if_neg hdepth, ih (Option.map_eq_none_iff.mp h)]
            rfl
        · next hclosing =>
          rw [if_neg hclosing, ih (Option.map_eq_none_iff.mp h)]
          rfl

/-- A token that is passed over is passed over whatever stands behind the tokens it is judged by, as
long as its bracket is not closed there. -/
theorem Passes.append {t : Token} {vs ws : List Token} {n : Nat} (h : Passes shape t (ts ++ vs) n)
    (hn : n ≤ ts.length)
    (hvs : ∀ depth, Cursor.closingOffset? ['('] [')'] depth vs = none →
      Cursor.closingOffset? ['('] [')'] depth ws = none) :
    Passes shape t (ts ++ ws) n := by
  cases h with
  | other hboundary hobject => exact .other hboundary hobject
  | broken hboundary hobject hfollow =>
    exact .broken hboundary hobject (followList_append hfollow (by decide) hn ws)
  | unclosed hboundary hobject hfollow hoffset =>
    refine .unclosed hboundary hobject (followList_append hfollow (by decide) hn ws) ?_
    rw [List.drop_append_of_le_length hn] at hoffset ⊢
    exact closingOffset?_append_none hvs hoffset

/-- **The tokens from the call on can be replaced.** What is passed over before the call is passed
over again, unless a bracket that was open there gets closed. -/
theorem callAt?_replace {vs ws : List Token} {k : Nat}
    (h : callAt? shape (ts ++ vs) = some (ts.length, k))
    (hvs : ∀ depth, Cursor.closingOffset? ['('] [')'] depth vs = none →
      Cursor.closingOffset? ['('] [')'] depth ws = none) :
    callAt? shape (ts ++ ws) = later ts.length (callAt? shape ws) := by
  generalize hlength : ts.length = length
  induction length using Nat.strongRecOn generalizing ts k with
  | ind length ih =>
    subst hlength
    cases ts with
    | nil => rw [List.nil_append, List.length_nil, later_zero]
    | cons t ts =>
      rw [List.cons_append] at h ⊢
      rcases callAt?_cases shape t (ts ++ vs) with hstops | ⟨n, k', hfinds⟩ | ⟨n, hpasses⟩
      · rw [hstops.callAt?_eq] at h
        cases h
      · -- the call would be found before
        rw [hfinds.callAt?_eq] at h
        simp at h
      · rw [hpasses.callAt?_eq, later, Option.map_eq_some_iff] at h
        obtain ⟨⟨j, k'⟩, hrest, hat⟩ := h
        obtain ⟨hj, -⟩ : j + (n + 1) = ts.length + 1 ∧ k' + (n + 1) = k := by simpa using hat
        have hn : n ≤ ts.length := by omega
        have hdrop : (ts.drop n).length = j := by
          rw [List.length_drop]
          omega
        rw [List.drop_append_of_le_length hn, ← hdrop] at hrest
        rw [(hpasses.append hn hvs).callAt?_eq, List.drop_append_of_le_length hn,
          ih _ (by rw [List.length_drop, List.length_cons]; omega) hrest rfl, later_later, hdrop,
          hj, List.length_cons]

/-! ## A call that is written out -/

/-- Tokens that make up the head of a call with its qualifier. -/
structure CallHead (shape : CallShape) (package colons object dollar method bracket : Token) :
    Prop where
  /-- the package -/
  package : package.is .identifier shape.package = true
  /-- two colons behind it -/
  colons : colons.is .operator [':', ':'] = true
  /-- the object -/
  object : object.is .identifier shape.object = true
  /-- the dollar behind it -/
  dollar : dollar.is .operator ['$'] = true
  /-- the method -/
  method : method.is .identifier shape.method = true
  /-- the bracket that opens the arguments -/
  bracket : bracket.is .punctuation ['('] = true

namespace CallHead

variable {package colons object dollar method bracket : Token} {rest : List Token} {k : Nat}

/-- From its object on, a call is found. -/
theorem finds (h : CallHead shape package colons object dollar method bracket)
    (hclosing : Cursor.closingOffset? ['('] [')'] 0 rest = some k) :
    Finds shape object (dollar :: method :: bracket :: rest) 3 k := by
  have hboundary := Token.isBoundary_of_is h.object (by decide)
  exact ⟨Bool.eq_false_iff.mp hboundary, h.object,
    followList_continuation h.dollar h.method h.bracket rest, hclosing⟩

/-- **A call that is written out is found at once**, even when its package is named like its
object. -/
theorem callAt?_eq (h : CallHead shape package colons object dollar method bracket)
    (hclosing : Cursor.closingOffset? ['('] [')'] 0 rest = some k) :
    callAt? shape (package :: colons :: object :: dollar :: method :: bracket :: rest) =
      some (2, k + 6) := by
  have hcolons := Token.is_iff.mp h.colons
  have hfinds := h.finds hclosing
  have hpass : Passes shape colons (object :: dollar :: method :: bracket :: rest) 0 :=
    .other (Bool.eq_false_iff.mp (Token.isBoundary_of_is h.colons (by decide)))
      (by simp [Token.is, hcolons.1])
  have hcall : callAt? shape (colons :: object :: dollar :: method :: bracket :: rest) =
      some (1, k + 5) := by
    rw [hpass.callAt?_eq, List.drop_zero, hfinds.callAt?_eq, later_some]
    congr 2
    omega
  have hpackage := Bool.eq_false_iff.mp (Token.isBoundary_of_is h.package (by decide))
  by_cases hobject : package.is .identifier shape.object = true
  · -- the package is taken for the object, and given up at the colons
    have hbroken : Passes shape package
        (colons :: object :: dollar :: method :: bracket :: rest) 1 := by
      refine .broken hpackage hobject ?_
      simp [CallShape.continuation, followList, Token.is, hcolons.2,
        Token.isBoundary_of_is h.colons (by decide)]
    rw [hbroken.callAt?_eq, List.drop_one, List.tail_cons, hfinds.callAt?_eq, later_some]
    congr 2
    omega
  · have hother : Passes shape package
        (colons :: object :: dollar :: method :: bracket :: rest) 0 :=
      .other hpackage hobject
    rw [hother.callAt?_eq, List.drop_zero, hcall, later_some]

end CallHead

end RmdOptions
