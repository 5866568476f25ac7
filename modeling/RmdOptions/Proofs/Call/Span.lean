import RmdOptions.Proofs.Call.Alike

/-!
# The span of a call

The span of a call reaches from its first token, which is its package if it is qualified and its
object otherwise, to the bracket that closes it.

* `Call`, `exists_call` — the parts of the first call in some tokens, and its span;
* `spanAt_append` — the span does not depend on tokens around the chunk;
* `Token.Below`, `spanAt_below` — it moves along with the tokens.
-/

namespace RmdOptions

variable {shape : CallShape} {ts us : List Token}

/-! ## The first token of a call -/

theorem qualifier?_eq_some {ts : List Token} {package : Token}
    (h : qualifier? shape ts.reverse = some package) :
    ∃ before colons, ts = before ++ [package, colons] ∧
      (colons.is .operator [':', ':'] = true ∨ colons.is .operator [':', ':', ':'] = true) ∧
      package.is .identifier shape.package = true := by
  rcases hts : ts.reverse with _ | ⟨colons, _ | ⟨package', before⟩⟩
  · simp [hts, qualifier?] at h
  · simp [hts, qualifier?] at h
  · rw [hts, qualifier?] at h
    split at h
    · next htests =>
      cases h
      rw [Bool.and_eq_true, Bool.or_eq_true] at htests
      refine ⟨before.reverse, colons, ?_, htests.1, htests.2⟩
      have hreverse := congrArg List.reverse hts
      rwa [List.reverse_reverse, List.reverse_cons, List.reverse_cons,
        List.append_assoc] at hreverse
    · cases h

/-- The first call in some tokens, which are cut at its first token and at its closing bracket. -/
inductive Call (shape : CallShape) (ts : List Token) :
    List Token → Token → List Token → Token → List Token → Prop where
  /-- a call that starts with its object -/
  | bare {before inside after : List Token} {object close : Token}
    (found : FoundCall shape ts before object inside close after)
    (unqualified : qualifier? shape before.reverse = none) :
    Call shape ts before object inside close after
  /-- a call that starts with its package -/
  | qualified {before inside after : List Token} {package colons object close : Token}
    (found : FoundCall shape ts (before ++ [package, colons]) object inside close after)
    (hpackage : package.is .identifier shape.package = true)
    (hcolons : colons.is .operator [':', ':'] = true ∨ colons.is .operator [':', ':', ':'] = true) :
    Call shape ts before package (colons :: object :: inside) close after

namespace Call

variable {before inside after : List Token} {first close : Token}

theorem tokens_eq (h : Call shape ts before first inside close after) :
    ts = before ++ first :: (inside ++ close :: after) := by
  cases h with
  | bare found => exact found.tokens_eq
  | qualified found => simpa using found.tokens_eq

theorem first_kind (h : Call shape ts before first inside close after) :
    first.kind = .identifier := by
  cases h with
  | bare found => exact (Token.is_iff.mp found.object_is).1
  | qualified _ hpackage => exact (Token.is_iff.mp hpackage).1

theorem close_is (h : Call shape ts before first inside close after) :
    close.is .punctuation [')'] = true := by
  cases h with
  | bare found => exact found.close_is
  | qualified found => exact found.close_is

end Call

namespace FoundCall

variable {before inside after : List Token} {object close : Token}

theorem getElem?_object (h : FoundCall shape ts before object inside close after) :
    ts[before.length]? = some object := by
  rw [h.tokens_eq, List.getElem?_append_right (Nat.le_refl _), Nat.sub_self]
  rfl

theorem getElem?_close (h : FoundCall shape ts before object inside close after) :
    ts[before.length + 1 + inside.length]? = some close := by
  have hindex : before.length + 1 + inside.length - before.length = inside.length + 1 := by omega
  rw [h.tokens_eq, List.getElem?_append_right (by omega), hindex, List.getElem?_cons_succ,
    List.getElem?_append_right (Nat.le_refl _), Nat.sub_self]
  rfl

theorem spanAt_eq (h : FoundCall shape ts before object inside close after) :
    shape.spanAt ts (before.length, before.length + 1 + inside.length) =
      some (Span.ofEnds
        (((qualifier? shape before.reverse).map (·.start)).getD object.start) close.stop) := by
  rw [CallShape.spanAt]
  dsimp only
  rw [h.getElem?_object, h.getElem?_close, h.tokens_eq, List.take_left]

end FoundCall

/-- **The parts of the first call, and its span.** -/
theorem exists_call {at' : Nat × Nat} (h : callAt? shape ts = some at') :
    ∃ before first inside close after, Call shape ts before first inside close after ∧
      shape.spanAt ts at' = some (Span.ofEnds first.start close.stop) := by
  obtain ⟨before, object, inside, close, after, hfound⟩ := exists_foundCall h
  have hat := hfound.callAt?_eq
  rw [h] at hat
  cases hat
  have hspan := hfound.spanAt_eq
  cases hqualifier : qualifier? shape before.reverse with
  | none =>
    rw [hqualifier] at hspan
    exact ⟨before, object, inside, close, after, .bare hfound hqualifier, hspan⟩
  | some package =>
    obtain ⟨before, colons, rfl, hcolons, hpackage⟩ := qualifier?_eq_some hqualifier
    rw [hqualifier] at hspan
    exact ⟨before, package, colons :: object :: inside, close, after,
      .qualified hfound hpackage hcolons, hspan⟩

/-! ## Tokens around a chunk -/

/-- A header does not qualify what follows it. -/
theorem qualifier?_append {header : Token} (hheader : header.kind = .chunkStart)
    (more : List Token) : qualifier? shape (ts ++ header :: more) = qualifier? shape ts := by
  match ts with
  | [] => cases more <;> simp [qualifier?, Token.is, hheader]
  | [colons] => simp [qualifier?, Token.is, hheader]
  | colons :: package :: rest => rfl

theorem spanAt_append (pre us : List Token) {header : Token} (hheader : header.kind = .chunkStart)
    {j k : Nat} (hj : j < ts.length) (hk : k < ts.length) :
    shape.spanAt (pre ++ header :: (ts ++ us)) (j + (pre.length + 1), k + (pre.length + 1)) =
      shape.spanAt ts (j, k) := by
  have hget {i : Nat} (hi : i < ts.length) :
      (pre ++ header :: (ts ++ us))[i + (pre.length + 1)]? = ts[i]? := by
    have hindex : i + (pre.length + 1) - pre.length = i + 1 := by omega
    rw [List.getElem?_append_right (by omega), hindex, List.getElem?_cons_succ,
      List.getElem?_append_left hi]
  have htake : (pre ++ header :: (ts ++ us)).take (j + (pre.length + 1)) =
      pre ++ header :: ts.take j := by
    have hlength : j + (pre.length + 1) = pre.length + (j + 1) := by omega
    rw [hlength, List.take_length_add_append, List.take_succ_cons,
      List.take_append_of_le_length (Nat.le_of_lt hj)]
  rw [CallShape.spanAt, CallShape.spanAt]
  dsimp only
  rw [hget hj, hget hk, htake, List.reverse_append, List.reverse_cons, List.append_assoc,
    List.singleton_append, qualifier?_append hheader]

/-! ## Moving down -/

namespace Span

/-- The same span, `rows` rows further down. -/
def down (s : Span) (rows : Nat) : Span where
  start := s.start.down rows
  stop := s.stop.down rows
  start_le_stop := by
    have h := s.start_le_stop
    rw [Position.le_def] at *
    simp only [Position.down]
    omega

@[simp] theorem down_start (s : Span) (rows : Nat) : (s.down rows).start = s.start.down rows := rfl

@[simp] theorem down_stop (s : Span) (rows : Nat) : (s.down rows).stop = s.stop.down rows := rfl

theorem ofEnds_down (p q : Position) (rows : Nat) :
    ofEnds (p.down rows) (q.down rows) = (ofEnds p q).down rows := by
  have hiff : p.down rows ≤ q.down rows ↔ p ≤ q := by
    simp only [Position.le_def, Position.down]
    omega
  by_cases h : p ≤ q
  · rw [ofEnds, dif_pos (hiff.mpr h), ofEnds, dif_pos h]
    rfl
  · rw [ofEnds, dif_neg fun hdown => h (hiff.mp hdown), ofEnds, dif_neg h]
    rfl

end Span

/-- The second token is the first one further down, but a string may stop elsewhere. -/
structure Token.Below (rows : Nat) (a b : Token) : Prop where
  /-- both are of one kind -/
  kind_eq : b.kind = a.kind
  /-- both have the same text -/
  text_eq : b.text = a.text
  /-- the second starts further down -/
  start_eq : b.start = a.start.down rows
  /-- the second stops further down -/
  stop_eq : a.kind ≠ .string → b.stop = a.stop.down rows

theorem Token.Below.is_eq {rows : Nat} {a b : Token} (h : Token.Below rows a b) (kind : TokenKind)
    (text : Text) : b.is kind text = a.is kind text := by
  rw [Token.is, Token.is, h.kind_eq, h.text_eq]

theorem Token.Below.alike {rows : Nat} {a b : Token} (h : Token.Below rows a b) :
    Alike shape a b :=
  Alike.of_eq h.kind_eq.symm h.text_eq.symm

theorem qualifier?_below {rows : Nat} (h : List.Forall₂ (Token.Below rows) ts us) :
    (qualifier? shape us).map (·.start) =
      (qualifier? shape ts).map fun package => package.start.down rows := by
  match h with
  | .nil => rfl
  | .cons _ .nil => rfl
  | .cons hcolons (.cons hpackage _) =>
    rw [qualifier?, qualifier?, hcolons.is_eq, hcolons.is_eq, hpackage.is_eq]
    split
    · rw [Option.map_some, Option.map_some, hpackage.start_eq]
    · rfl

/-- Where two lists of tokens correspond, so do the tokens at an index. -/
theorem exists_of_forall₂ {r : Token → Token → Prop} (h : List.Forall₂ r ts us) {i : Nat}
    {a : Token} (hi : ts[i]? = some a) : ∃ b, us[i]? = some b ∧ r a b := by
  induction h generalizing i with
  | nil => simp at hi
  | cons hab _ ih =>
    cases i with
    | zero =>
      obtain rfl := Option.some.inj hi
      exact ⟨_, rfl, hab⟩
    | succ i => exact ih hi

/-- **The span of a call moves along with its tokens.** -/
theorem spanAt_below {rows : Nat} (h : List.Forall₂ (Token.Below rows) ts us) {at' : Nat × Nat}
    (hcall : callAt? shape ts = some at') :
    shape.spanAt us at' = (shape.spanAt ts at').map (·.down rows) := by
  obtain ⟨before, object, inside, close, after, hfound⟩ := exists_foundCall hcall
  obtain rfl : at' = _ := Option.some.inj (hcall.symm.trans hfound.callAt?_eq)
  obtain ⟨object', hobject', hobject⟩ := exists_of_forall₂ h hfound.getElem?_object
  obtain ⟨close', hclose', hclose⟩ := exists_of_forall₂ h hfound.getElem?_close
  have hbefore :
      List.Forall₂ (Token.Below rows) before.reverse (us.take before.length).reverse := by
    have htake := List.forall₂_take before.length h
    rw [hfound.tokens_eq, List.take_left] at htake
    exact List.rel_reverse htake
  have hstop : close'.stop = close.stop.down rows := by
    refine hclose.stop_eq ?_
    rw [(Token.is_iff.mp hfound.close_is).1]
    decide
  rw [hfound.spanAt_eq, CallShape.spanAt]
  dsimp only
  rw [hobject', hclose', Option.map_some, ← Span.ofEnds_down, ← hstop, qualifier?_below hbefore]
  dsimp only
  rw [hobject.start_eq]
  cases qualifier? shape before.reverse with
  | none => rfl
  | some package => rfl

end RmdOptions
