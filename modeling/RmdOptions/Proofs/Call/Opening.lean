import RmdOptions.Proofs.Call.Outcome
import RmdOptions.Proofs.Options.Written

/-!
# How a call may open

A call opens with its object, a dollar, the method and a bracket. The object may be qualified by the
package, with two colons or with three. However it opens, the head comes first in what is read, so
the call is the one that is found.

* `Qualifier`, `CallShape.opening` — the three ways to open a call;
* `exists_readAs_opening` — the tokens of each of them.
-/

namespace RmdOptions

variable {shape : CallShape} {row column : Nat}

/-! ## Qualifiers -/

/-- How the object of a call is qualified. -/
inductive Qualifier where
  /-- not at all -/
  | bare
  /-- by the package and two colons -/
  | exported
  /-- by the package and three colons -/
  | internal
  deriving DecidableEq

/-- What stands before the object. -/
def Qualifier.text (shape : CallShape) : Qualifier → Text
  | .bare => []
  | .exported => shape.package ++ [':', ':']
  | .internal => shape.package ++ [':', ':', ':']

/-- A call up to the bracket that opens its arguments. -/
def CallShape.opening (shape : CallShape) (qualifier : Qualifier) : Text :=
  qualifier.text shape ++ (shape.object ++ (['$'] ++ (shape.method ++ ['('])))

/-- What is written opens with the package and two colons. -/
theorem CallShape.head_append (shape : CallShape) :
    shape.head ++ ['('] = shape.opening .exported := by
  simp [head, opening, Qualifier.text]

/-- Three colons are one token. -/
theorem readAs_threeColons {rest : Text} :
    ReadAs row column [':', ':', ':'] [tokenAt .operator row column [':', ':', ':']] rest :=
  readAs_of_lexeme? (forall_head? (by decide) _) rfl

/-- The tokens of a qualifier in front of a name. -/
theorem Qualifier.exists_readAs (h : shape.IsPlain) (row column : Nat) (qualifier : Qualifier) :
    ∃ before : List Token,
      (∀ t ∈ before, t.kind = .operator ∨ t.is .identifier shape.package = true) ∧
      ∀ rest : Text, rest.head? ≠ some ':' →
        ReadAs row column (qualifier.text shape) before rest := by
  have hpackage (rest : Text) := readAs_identifier row column h.package
    (stopsWord_cons (c := ':') (by decide) rest)
  have htokens (colons : Token) (hcolons : colons.kind = .operator) :
      ∀ t ∈ [tokenAt .identifier row column shape.package, colons],
        t.kind = .operator ∨ t.is .identifier shape.package = true := by
    intro t ht
    rcases List.mem_cons.mp ht with rfl | ht
    · exact Or.inr (is_tokenAt _ _ _ _)
    · rw [List.mem_singleton.mp ht]
      exact Or.inl hcolons
  cases qualifier with
  | bare => exact ⟨[], fun t ht => absurd ht List.not_mem_nil, fun rest _ => ReadAs.nil⟩
  | exported =>
    exact ⟨_, htokens _ rfl, fun rest hrest => (hpackage _).append (readAs_colons hrest)⟩
  | internal =>
    exact ⟨_, htokens _ rfl, fun rest _ => (hpackage _).append readAs_threeColons⟩

/-- **The tokens with which a call opens**, whatever follows them. -/
theorem exists_readAs_opening (h : shape.IsPlain) (hne : shape.package ≠ shape.object)
    (row column : Nat) (qualifier : Qualifier) :
    ∃ before object dollar method bracket, LeadsIn shape before object dollar method bracket ∧
      ∀ rest, ReadAs row column (shape.opening qualifier)
        (before ++ [object, dollar, method, bracket]) rest := by
  obtain ⟨before, hbefore, hreads⟩ := qualifier.exists_readAs h row column
  have hobject (rest : Text) :
      (shape.object ++ (['$'] ++ (shape.method ++ ['('])) ++ rest).head? ≠ some ':' := by
    rw [List.append_assoc]
    exact h.object.1.head?_ne_colon _
  have hopening (rest : Text) := (hreads _ (hobject rest)).append
    ((readAs_identifier _ _ h.object (stopsWord_cons (by decide) _)).append
      (readAs_dollar.append
        ((readAs_identifier _ _ h.method (stopsWord_cons (by decide) _)).append
          (readAs_punctuation (c := '(') (by decide)))))
  refine ⟨before, _, _, _, _, ⟨fun t ht => ?_, is_tokenAt _ _ _ _, is_tokenAt _ _ _ _,
    is_tokenAt _ _ _ _, is_tokenAt _ _ _ _⟩, hopening⟩
  -- neither the package nor the colons are the object
  rcases hbefore t ht with hkind | hpackage
  · simp [Token.isBoundary, Token.is, hkind]
  · obtain ⟨hkind, htext⟩ := Token.is_iff.mp hpackage
    simp [Token.isBoundary, Token.is, hkind, htext, hne]

end RmdOptions
