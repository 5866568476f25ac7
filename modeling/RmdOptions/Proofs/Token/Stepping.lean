import Mathlib.Logic.Function.Iterate
import RmdOptions.Proofs.Token.Brackets
import RmdOptions.Proofs.Token.Nesting

/-!
# Cursors as numbers

A cursor stands before the first of its tokens, on one of them, or past the last. Its place can also
be told by an integer, which is `-1` before the first token and the number of tokens past the last,
or by an index that is missing before the first token. Each of the three is moved in its own way,
and is held at both ends. They never come apart: whatever is asked of cursors over some tokens,
among them copies of one another, every answer is the one that the numbers give.

* `Stepping` — what stands for a place among tokens, how it is moved, and what is read there;
* `Stepping.Request`, `Stepping.run` — what is asked of several places held at once, and what comes
  of it;
* `Stepping.run_getElem?` — a place that nobody asks to move stays where it is;
* `Stepping.Follows`, `Stepping.Follows.run` — places that are told in another way: if single moves
  agree, so do all runs;
* `Cursor.stepping`, `Stepping.counting`, `Stepping.indexing` — cursors, integers, and indexes that
  may be missing;
* `Cursor.follows_counting`, `Cursor.follows_indexing` — they agree in every move;
* `Cursor.backward_forward_iff`, `Cursor.forward_backward_iff` — when steps can be taken back;
* `Cursor.run_counts` — **cursors behave as integers held between `-1` and the number of tokens**.
-/

namespace RmdOptions

variable {tokens : List Token} {σ τ : Type}

/-! ## Places held at once -/

/-- A way to go over tokens. -/
structure Stepping (σ : Type) where
  /-- one token on -/
  forward : σ → σ
  /-- one token back -/
  backward : σ → σ
  /-- from a bracket to the one that closes it -/
  closing? : σ → Option σ
  /-- the token at a place -/
  current? : σ → Option Token
  /-- the index of that token -/
  index? : σ → Option Nat

namespace Stepping

/-- What can be asked of places that are held at once. Each is known by its number, in the order in
which they were made. -/
inductive Request where
  /-- to step on, and tell the token there -/
  | forward (i : Nat)
  /-- to step back, and tell the token there -/
  | backward (i : Nat)
  /-- to move to the bracket that closes the one it is on, and tell whether there is any -/
  | toClosing (i : Nat)
  /-- to tell the token it is on -/
  | current (i : Nat)
  /-- to tell the index of that token -/
  | index (i : Nat)
  /-- to make one more, at the same place -/
  | clone (i : Nat)
  /-- to go to the place of another one -/
  | restore (i j : Nat)
  deriving DecidableEq

/-- The number of the place that a request moves. The one that is copied stays. -/
def Request.moved? : Request → Option Nat
  | .forward i | .backward i | .toClosing i | .restore i _ => some i
  | .current _ | .index _ | .clone _ => none

/-- What is answered to a request. -/
inductive Answer where
  /-- a token, unless there is none -/
  | token (t : Option Token)
  /-- an index, unless there is no token -/
  | index (i : Option Nat)
  /-- whether a bracket was found -/
  | found (b : Bool)
  /-- nothing -/
  | done
  deriving DecidableEq

/-- Where the bracket is that closes the one at a place, or that place if there is none. -/
def toClosing (A : Stepping σ) (p : σ) : σ := (A.closing? p).getD p

/-- One request. A number that no place has changes nothing. -/
def step (A : Stepping σ) (held : List σ) : Request → List σ × Answer
  | .forward i =>
    (held.modify i A.forward, .token (held[i]?.bind fun p => A.current? (A.forward p)))
  | .backward i =>
    (held.modify i A.backward, .token (held[i]?.bind fun p => A.current? (A.backward p)))
  | .toClosing i =>
    (held.modify i A.toClosing, .found (held[i]?.bind A.closing?).isSome)
  | .current i => (held, .token (held[i]?.bind A.current?))
  | .index i => (held, .index (held[i]?.bind A.index?))
  | .clone i => (held ++ held[i]?.toList, .done)
  | .restore i j => (held[j]?.elim held (held.set i), .done)

/-- Some requests, one after another: the places in the end, and all answers. -/
def run (A : Stepping σ) (held : List σ) : List Request → List σ × List Answer
  | [] => (held, [])
  | request :: requests =>
    let (held, answer) := A.step held request
    let (held, answers) := A.run held requests
    (held, answer :: answers)

variable {A : Stepping σ} {B : Stepping τ} {f : σ → τ} {held : List σ} {request : Request}
  {requests : List Request} {i : Nat}

theorem run_cons : A.run held (request :: requests) =
    ((A.run (A.step held request).1 requests).1,
      (A.step held request).2 :: (A.run (A.step held request).1 requests).2) := rfl

/-! ## Places that are not asked to move -/

theorem length_le_step : held.length ≤ (A.step held request).1.length := by
  cases request with
  | forward i | backward i | toClosing i => exact (List.length_modify ..).ge
  | current i | index i => exact Nat.le_refl _
  | clone i => exact (List.prefix_append held _).length_le
  | restore i j =>
    cases hj : held[j]? with
    | none => simp [step, hj]
    | some p => simp [step, hj]

/-- A request moves no place but the one that it is about. -/
theorem step_getElem? (hi : i < held.length) (hmoved : request.moved? ≠ some i) :
    (A.step held request).1[i]? = held[i]? := by
  have hother {j : Nat} (hj : some j ≠ some i) : j ≠ i := fun h => hj (congrArg some h)
  cases request with
  | forward j | backward j | toClosing j => exact List.getElem?_modify_ne _ _ (hother hmoved)
  | current j | index j => rfl
  | clone j => exact List.getElem?_append_left hi
  | restore j k =>
    cases hk : held[k]? with
    | none => simp [step, hk]
    | some p =>
      rw [step, hk]
      exact List.getElem?_set_ne (hother hmoved)

/-- **A place that is not asked to move stays where it is**, whatever becomes of its copies. -/
theorem run_getElem? (hi : i < held.length)
    (hmoved : ∀ request ∈ requests, request.moved? ≠ some i) :
    (A.run held requests).1[i]? = held[i]? := by
  induction requests generalizing held with
  | nil => rfl
  | cons request requests ih =>
    obtain ⟨hfirst, hrest⟩ := List.forall_mem_cons.mp hmoved
    rw [run_cons, ih (Nat.lt_of_lt_of_le hi length_le_step) hrest, step_getElem? hi hfirst]

/-! ## Places told in another way -/

/-- Places are told in another way, by which every move and every reading is the same. -/
structure Follows (A : Stepping σ) (B : Stepping τ) (f : σ → τ) : Prop where
  /-- stepping on -/
  forward : ∀ p, B.forward (f p) = f (A.forward p)
  /-- stepping back -/
  backward : ∀ p, B.backward (f p) = f (A.backward p)
  /-- moving to a closing bracket -/
  closing? : ∀ p, B.closing? (f p) = (A.closing? p).map f
  /-- reading the token -/
  current? : ∀ p, B.current? (f p) = A.current? p
  /-- reading its index -/
  index? : ∀ p, B.index? (f p) = A.index? p

theorem map_modify {g : σ → σ} {g' : τ → τ} (h : ∀ p, g' (f p) = f (g p)) (held : List σ)
    (i : Nat) : (held.map f).modify i g' = (held.modify i g).map f := by
  apply List.ext_getElem?
  intro j
  rw [List.getElem?_modify, List.getElem?_map, List.getElem?_map, List.getElem?_modify]
  cases held[j]? with
  | none => rfl
  | some p =>
    simp only [Option.map_some, Option.map_eq_map]
    split
    · rw [h]
    · rfl

namespace Follows

theorem toClosing (h : Follows A B f) (p : σ) : B.toClosing (f p) = f (A.toClosing p) := by
  rw [Stepping.toClosing, h.closing?, Option.getD_map]
  rfl

/-- One request comes to the same in both ways. -/
theorem step (h : Follows A B f) (held : List σ) (request : Request) :
    B.step (held.map f) request = ((A.step held request).1.map f, (A.step held request).2) := by
  cases request with
  | forward i =>
    simp only [Stepping.step, map_modify h.forward, List.getElem?_map, Option.bind_map,
      Function.comp_def, h.forward, h.current?]
  | backward i =>
    simp only [Stepping.step, map_modify h.backward, List.getElem?_map, Option.bind_map,
      Function.comp_def, h.backward, h.current?]
  | toClosing i =>
    have hfound (o : Option σ) :
        ((o.map f).bind B.closing?).isSome = (o.bind A.closing?).isSome := by
      cases o with
      | none => rfl
      | some p => exact (congrArg Option.isSome (h.closing? p)).trans Option.isSome_map
    simp only [Stepping.step, map_modify h.toClosing, List.getElem?_map, hfound]
  | current i =>
    simp only [Stepping.step, List.getElem?_map, Option.bind_map, Function.comp_def, h.current?]
  | index i =>
    simp only [Stepping.step, List.getElem?_map, Option.bind_map, Function.comp_def, h.index?]
  | clone i =>
    simp only [Stepping.step, List.getElem?_map, List.map_append, Option.toList_map]
  | restore i j =>
    simp only [Stepping.step, List.getElem?_map]
    cases held[j]? with
    | none => rfl
    | some p => exact congrArg (·, Answer.done) List.map_set.symm

/-- **So do all requests.** -/
theorem run (h : Follows A B f) (held : List σ) (requests : List Request) :
    B.run (held.map f) requests = ((A.run held requests).1.map f, (A.run held requests).2) := by
  induction requests generalizing held with
  | nil => rfl
  | cons request requests ih =>
    rw [run_cons, run_cons, h.step, ih]

end Follows

end Stepping

/-! ## Cursors -/

/-- Cursors as they are. -/
def Cursor.stepping (tokens : List Token) : Stepping (Cursor tokens) where
  forward := forward
  backward := backward
  closing? := closing?
  current? := current?
  index? := index?

/-- Integers that are held between `-1` and the number of tokens. -/
def Stepping.counting (tokens : List Token) : Stepping Int where
  forward p := min (p + 1) tokens.length
  backward p := max (p - 1) (-1)
  closing? p :=
    ((List.range tokens.length).find? fun k => 0 ≤ p ∧ Matches tokens p.toNat k).map Int.ofNat
  current? p := if 0 ≤ p then tokens[p.toNat]? else none
  index? p := if 0 ≤ p ∧ p < tokens.length then some p.toNat else none

/-- Indexes that are missing before the first token and may be as many as there are tokens. -/
def Stepping.indexing (tokens : List Token) : Stepping (Option Nat) where
  forward o := some (min (o.elim 0 (· + 1)) tokens.length)
  backward
    | none | some 0 => none
    | some (i + 1) => some (min (i + 1) tokens.length - 1)
  closing? o := (o.bind (closedBy? tokens)).map some
  current? o := o.bind (tokens[·]?)
  index? o := o.filter (· < tokens.length)

namespace Cursor

/-- The integer that tells where a cursor is. -/
def counter (c : Cursor tokens) : Int := c.place - 1

/-- The index that tells where a cursor is. -/
def reached? (c : Cursor tokens) : Option Nat :=
  match c.place with
  | 0 => none
  | i + 1 => some i

variable {c d : Cursor tokens} {i m : Nat}

theorem place_eq_counter (c : Cursor tokens) : (c.place : Int) = c.counter + 1 := by
  rw [counter]
  omega

theorem counter_bounds (c : Cursor tokens) : -1 ≤ c.counter ∧ c.counter ≤ tokens.length := by
  have := c.place_le
  rw [counter]
  omega

theorem counter_forward (c : Cursor tokens) :
    c.forward.counter = min (c.counter + 1) tokens.length := by
  rw [counter, counter, place_forward]
  omega

theorem counter_backward (c : Cursor tokens) : c.backward.counter = max (c.counter - 1) (-1) := by
  rw [counter, counter, place_backward]
  omega

/-- Its integer tells where a cursor is. -/
theorem counter_inj : c.counter = d.counter ↔ c = d := by
  refine ⟨fun h => ext_place ?_, congrArg counter⟩
  rw [counter, counter] at h
  omega

/-- The integers that tell it are those from `-1` to the number of tokens. -/
theorem exists_counter_iff {p : Int} :
    (∃ c : Cursor tokens, c.counter = p) ↔ -1 ≤ p ∧ p ≤ tokens.length := by
  constructor
  · rintro ⟨c, rfl⟩
    exact c.counter_bounds
  · rintro ⟨hlow, hhigh⟩
    refine ⟨⟨(p + 1).toNat, by omega⟩, ?_⟩
    simp only [counter]
    omega

/-- A cursor is on a token if its integer is the index of the token. -/
theorem index?_eq_some_iff_counter :
    c.index? = some i ↔ c.counter = i ∧ i < tokens.length := by
  rw [index?_eq_some_iff, counter]
  omega

theorem reached?_eq_some_iff : c.reached? = some i ↔ c.place = i + 1 := by
  rw [reached?]
  cases c.place with
  | zero => simp
  | succ k => simp

theorem reached?_eq_none_iff : c.reached? = none ↔ c.place = 0 := by
  rw [reached?]
  cases c.place with
  | zero => simp
  | succ k => simp

/-- So it is if its index is the one of the token. -/
theorem index?_eq_some_iff_reached? :
    c.index? = some i ↔ c.reached? = some i ∧ i < tokens.length := by
  rw [index?_eq_some_iff, reached?_eq_some_iff]

/-- However the places on tokens are told, a cursor moves from a bracket to the one that closes
it. -/
theorem map_closing?_eq_some_iff {f : Cursor tokens → τ} {g : Nat → τ} {q : τ}
    (h : ∀ {c : Cursor tokens} {i : Nat}, c.index? = some i ↔ f c = g i ∧ i < tokens.length) :
    c.closing?.map f = some q ↔ ∃ i k, f c = g i ∧ q = g k ∧ Matches tokens i k := by
  rw [Option.map_eq_some_iff]
  constructor
  · rintro ⟨d, hd, rfl⟩
    obtain ⟨i, k, hi, hk, hmatches⟩ := closing?_eq_some_iff.mp hd
    exact ⟨i, k, (h.mp hi).1, (h.mp hk).1, hmatches⟩
  · rintro ⟨i, k, hi, rfl, hmatches⟩
    obtain ⟨d, hd⟩ := exists_index?_eq hmatches.lt_length
    have hlt := Nat.lt_trans hmatches.lt hmatches.lt_length
    exact ⟨d, closing?_eq_some_iff.mpr ⟨i, k, h.mpr ⟨hi, hlt⟩, hd, hmatches⟩, (h.mp hd).1⟩

end Cursor

/-! ## In step with the numbers -/

theorem Stepping.closing?_counting_eq_some_iff {p q : Int} :
    (Stepping.counting tokens).closing? p = some q ↔
      ∃ i k : Nat, p = i ∧ q = k ∧ Matches tokens i k := by
  simp only [Stepping.counting, Option.map_eq_some_iff, List.find?_range_eq_some, List.mem_range,
    decide_eq_true_eq]
  constructor
  · rintro ⟨k, ⟨⟨hp, hmatches⟩, -, -⟩, rfl⟩
    exact ⟨p.toNat, k, (Int.toNat_of_nonneg hp).symm, rfl, hmatches⟩
  · rintro ⟨i, k, rfl, rfl, hmatches⟩
    refine ⟨k, ⟨⟨Int.natCast_nonneg i, hmatches⟩, hmatches.lt_length, fun j hj => ?_⟩, rfl⟩
    have hother : ¬Matches tokens i j := fun h => absurd (hmatches.unique h) (Nat.ne_of_lt hj)
    simp [hother]

theorem Stepping.closing?_indexing_eq_some_iff {o o' : Option Nat} :
    (Stepping.indexing tokens).closing? o = some o' ↔
      ∃ i k, o = some i ∧ o' = some k ∧ Matches tokens i k := by
  simp only [Stepping.indexing, Option.map_eq_some_iff, Option.bind_eq_some_iff,
    closedBy?_eq_some_iff]
  constructor
  · rintro ⟨k, ⟨i, hi, hmatches⟩, rfl⟩
    exact ⟨i, k, hi, rfl, hmatches⟩
  · rintro ⟨i, k, hi, rfl, hmatches⟩
    exact ⟨k, ⟨i, hi, hmatches⟩, rfl⟩

namespace Cursor

/-- **Cursors behave as the integers that tell where they are.** -/
theorem follows_counting (tokens : List Token) :
    (stepping tokens).Follows (Stepping.counting tokens) counter where
  forward c := c.counter_forward.symm
  backward c := c.counter_backward.symm
  closing? c := Option.ext fun q => by
    rw [Stepping.closing?_counting_eq_some_iff]
    exact (map_closing?_eq_some_iff index?_eq_some_iff_counter).symm
  current? c := by
    simp only [stepping, Stepping.counting, counter, current?]
    cases c.place with
    | zero => rfl
    | succ i => simp
  index? c := Option.ext fun i => by
    simp only [stepping, Stepping.counting, index?_eq_some_iff_counter]
    split
    · rw [Option.some.injEq]
      omega
    · simp only [reduceCtorEq, false_iff]
      omega

/-- **So they do as indexes that are missing before the first token.** -/
theorem follows_indexing (tokens : List Token) :
    (stepping tokens).Follows (Stepping.indexing tokens) reached? where
  forward c := by
    have hplace : c.reached?.elim 0 (· + 1) = c.place := by
      rw [reached?]
      cases c.place with
      | zero => rfl
      | succ i => rfl
    refine (reached?_eq_some_iff.mpr ?_).symm
    rw [hplace]
    exact Nat.add_min_add_right ..
  backward c := by
    have hle := c.place_le
    -- before the first token, on it, or further on
    rcases hplace : c.place with _ | _ | i
    · rw [reached?_eq_none_iff.mpr hplace]
      exact (reached?_eq_none_iff.mpr (by rw [stepping, place_backward, hplace])).symm
    · rw [reached?_eq_some_iff.mpr hplace]
      exact (reached?_eq_none_iff.mpr (by rw [stepping, place_backward, hplace])).symm
    · rw [reached?_eq_some_iff.mpr hplace]
      refine (reached?_eq_some_iff.mpr ?_).symm
      simp only [stepping, place_backward]
      omega
  closing? c := Option.ext fun o => by
    rw [Stepping.closing?_indexing_eq_some_iff]
    exact (map_closing?_eq_some_iff index?_eq_some_iff_reached?).symm
  current? c := by
    simp only [stepping, Stepping.indexing, reached?, current?]
    cases c.place with
    | zero => rfl
    | succ i => rfl
  index? c := Option.ext fun i => by
    simp only [stepping, Stepping.indexing, Option.filter_eq_some_iff, decide_eq_true_eq]
    exact index?_eq_some_iff_reached?.symm

/-! ## Steps that are taken back -/

theorem counter_iterate_forward (c : Cursor tokens) (m : Nat) :
    (forward^[m] c).counter = min (c.counter + m) tokens.length := by
  induction m with
  | zero =>
    have := c.counter_bounds
    rw [Function.iterate_zero_apply]
    omega
  | succ m ih =>
    rw [Function.iterate_succ_apply', counter_forward, ih]
    omega

theorem counter_iterate_backward (c : Cursor tokens) (m : Nat) :
    (backward^[m] c).counter = max (c.counter - m) (-1) := by
  induction m with
  | zero =>
    have := c.counter_bounds
    rw [Function.iterate_zero_apply]
    omega
  | succ m ih =>
    rw [Function.iterate_succ_apply', counter_backward, ih]
    omega

/-- Steps on can be taken back if none of them was past the end, and before the first token in any
case. -/
theorem backward_forward_iff (c : Cursor tokens) (m : Nat) :
    backward^[m] (forward^[m] c) = c ↔ c.counter + m ≤ tokens.length ∨ c.counter = -1 := by
  have := c.counter_bounds
  rw [← counter_inj, counter_iterate_backward, counter_iterate_forward]
  omega

/-- Steps back can be taken on again if none of them was before the start, and past the last token
in any case. -/
theorem forward_backward_iff (c : Cursor tokens) (m : Nat) :
    forward^[m] (backward^[m] c) = c ↔ -1 ≤ c.counter - m ∨ c.counter = tokens.length := by
  have := c.counter_bounds
  rw [← counter_inj, counter_iterate_forward, counter_iterate_backward]
  omega

/-! ## Where cursors are made -/

/-- A cursor that is put on a position is not past the last token, and where tokens are in order, it
has reached just those that start by the position. -/
theorem counter_on (tokens : List Token) (p : Position) : (on tokens p).counter < tokens.length ∧
    ((tokens.Pairwise fun token later => token.start ≤ later.start) →
      ∀ (i : Nat) (token : Token), tokens[i]? = some token →
        (token.start ≤ p ↔ i ≤ (on tokens p).counter)) := by
  have hplace := place_eq_counter (on tokens p)
  refine ⟨?_, fun horder i token htoken => ?_⟩
  · have hle : (on tokens p).place ≤ tokens.length := (List.takeWhile_prefix _).length_le
    omega
  · rw [start_le_iff horder p htoken]
    omega

/-- **Cursors behave as integers held between `-1` and the number of tokens.** Whatever is asked of
some cursors over the same tokens, and of their copies, they end where the integers end that are
asked the same, and answer as these do; so do indexes that are missing before the first token. A
cursor that is not asked to move stays, whatever becomes of its copies. Each integer from `-1` to
the number of tokens tells where one cursor is, and it is an index exactly where the cursor has one.
Steps on and as many back lead to where they began exactly if none of them was cut short at the end,
or if they began before the first token; steps back and as many on, if none was cut short at the
start, or if they began past the last token. The cursor that a search begins with is at `-1`, and
one that is put on a position has reached the tokens that start by it. -/
theorem run_counts (tokens : List Token) (held : List (Cursor tokens))
    (requests : List Stepping.Request) :
    let final := (stepping tokens).run held requests
    (Stepping.counting tokens).run (held.map counter) requests =
        (final.1.map counter, final.2) ∧
      (Stepping.indexing tokens).run (held.map reached?) requests =
        (final.1.map reached?, final.2) ∧
      (∀ i < held.length, (∀ request ∈ requests, request.moved? ≠ some i) →
        final.1[i]? = held[i]?) ∧
      (∀ p : Int, -1 ≤ p ∧ p ≤ tokens.length ↔ ∃! c : Cursor tokens, c.counter = p) ∧
      (∀ (c : Cursor tokens) (i : Nat),
        c.index? = some i ↔ c.counter = i ∧ i < tokens.length) ∧
      (∀ (c : Cursor tokens) (m : Nat),
        (backward^[m] (forward^[m] c) = c ↔ c.counter + m ≤ tokens.length ∨ c.counter = -1) ∧
        (forward^[m] (backward^[m] c) = c ↔
          -1 ≤ c.counter - m ∨ c.counter = tokens.length)) ∧
      (start tokens).counter = -1 ∧
      ∀ p : Position, (on tokens p).counter < tokens.length ∧
        ((tokens.Pairwise fun token later => token.start ≤ later.start) →
          ∀ (i : Nat) (token : Token), tokens[i]? = some token →
            (token.start ≤ p ↔ i ≤ (on tokens p).counter)) := by
  intro final
  refine ⟨(follows_counting tokens).run held requests, (follows_indexing tokens).run held requests,
    fun i hi hmoved => Stepping.run_getElem? hi hmoved, fun p => ?_,
    fun c i => index?_eq_some_iff_counter,
    fun c m => ⟨c.backward_forward_iff m, c.forward_backward_iff m⟩, rfl, counter_on tokens⟩
  rw [← exists_counter_iff]
  constructor
  · rintro ⟨c, hc⟩
    exact ⟨c, hc, fun d hd => counter_inj.mp (hd.trans hc.symm)⟩
  · exact fun h => h.exists

/-- Without tokens there are two places, and a copy stays at the one that the cursor leaves. -/
example : ((stepping []).run [start []]
      [.forward 0, .forward 0, .clone 0, .backward 0, .backward 0, .index 1]) =
    ([⟨0, by decide⟩, ⟨1, by decide⟩],
      [.token none, .token none, .done, .token none, .token none, .index none]) := by
  decide

end Cursor

end RmdOptions
