import RmdOptions.Proofs.Call.Opening
import RmdOptions.Proofs.Options.Merge
import RmdOptions.Proofs.Token.Single

/-!
# Names that are written bare

Reading takes the backticks off the name of an option, and writing does not put them back. So an
option can be read whatever its name is, but when it is written and read again its name must do
without the backticks: it must be one token then, and not one that means something else in a call.

* `IsBareName` — the names that do without backticks;
* `exists_codeTokens_option`, `LeadsIn.readOptions_option` — a call with one option, whatever token
  its name is;
* `exists_lexeme?_of_read` — a name that is read is one token;
* `Config.readOptions_quotedName` — **which names survive when they are written and read again**.
-/

namespace RmdOptions

variable {shape : CallShape} {lexer : Lexer} {source : Text} {name written value : Text}
variable {kind : TokenKind}

/-! ## Bare names -/

/-- A name does without backticks: read alone it is one token, which is no string or comment and no
round bracket or comma. -/
def IsBareName (name : Text) : Prop :=
  name ∉ [['('], [')'], [',']] ∧ ∃ kind, kind ≠ .string ∧ kind ≠ .comment ∧
    lexCode Rule.all 0 0 name = ([tokenAt kind 0 0 name], none)

/-- In front of a space, such a name is one token too, from which no quotes are taken. -/
theorem isBareName_iff (hne : name ≠ []) (htick : '\x60' ∉ name) (hfeed : '\n' ∉ name) {rest : Text}
    (hrest : '%' ∉ rest) :
    IsBareName name ↔ name ∉ [['('], [')'], [',']] ∧
      Text.unquote ['\x60', '\x22', '\x27'] name = name ∧
      (∀ c ∈ name.head?, isWhiteSpace c = false) ∧
      ∃ kind, lexeme? Rule.all (name ++ ' ' :: rest) = some (kind, name.length) := by
  have htick' : name.head? ≠ some '\x60' := fun h => htick (List.mem_of_mem_head? h)
  refine and_congr_right fun _ => ⟨?_, ?_⟩
  · rintro ⟨kind, hstring, hcomment, hcode⟩
    obtain ⟨hwhite, hlexeme⟩ := (lexCode_eq_tokenAt_iff hfeed).mp hcode
    exact ⟨(unquote_eq_self_iff htick' hlexeme).mpr hstring, hwhite, kind,
      (lexeme?_append_space_iff hne htick' hfeed hrest).mpr ⟨hcomment, hlexeme⟩⟩
  · rintro ⟨hunquote, hwhite, kind, hlexeme⟩
    obtain ⟨hcomment, halone⟩ := (lexeme?_append_space_iff hne htick' hfeed hrest).mp hlexeme
    exact ⟨kind, (unquote_eq_self_iff htick' halone).mp hunquote, hcomment,
      (lexCode_eq_tokenAt_iff hfeed).mpr ⟨hwhite, halone⟩⟩

/-! ## A call on one line -/

/-- The tokens of code that is one line, perhaps with an empty one below: those that are read of the
line, and perhaps a string that it leaves open. -/
theorem exists_codeTokens_line {line : Text} {below : List Text}
    (hbelow : below = [] ∨ below = [[]]) (hlines : source.lines = line :: below) (fence : Text) :
    ∃ left : List Token, (∀ t ∈ left, t.kind = .string) ∧
      ((lexCode Rule.all 0 0 line).2 = none → left = []) ∧
      (Lexer.closedBy fence).codeTokens source = (lexCode Rule.all 0 0 line).1 ++ left := by
  have hrules : (Lexer.closedBy fence).rules = Rule.all := rfl
  have hstring {left : Option OpenString} {stop : Position} :
      ∀ t ∈ abandoned left stop, t.kind = .string := by
    intro t ht
    obtain ⟨s, -, -, hkind⟩ := mem_abandoned ht
    exact hkind
  have hfirst : lexLine Rule.all none 0 line = lexCode Rule.all 0 0 line := rfl
  rw [Lexer.codeTokens_eq, hrules, hlines, lexLines_cons, hfirst, precede_fst, precede_snd]
  -- an empty line has no tokens, and leaves open what was
  have hempty : (lexLines Rule.all (lexCode Rule.all 0 0 line).2 1 below).1 = [] ∧
      ((lexCode Rule.all 0 0 line).2 = none →
        (lexLines Rule.all (lexCode Rule.all 0 0 line).2 1 below).2 = none) := by
    rcases hbelow with rfl | rfl
    · exact ⟨rfl, fun h => h⟩
    · rw [lexLines_cons, lexLines_nil, precede_fst, precede_snd, List.append_nil]
      cases (lexCode Rule.all 0 0 line).2 with
      | none => simp [lexLine]
      | some s => simp [lexLine, closingQuote?]
  rw [hempty.1, List.append_nil]
  refine ⟨_, hstring, fun hnone => ?_, rfl⟩
  rw [hempty.2 hnone]
  rfl

/-- An option is read of a token for its name, an equals sign and at least one token more. -/
theorem exists_of_namedArgument? {group : List Token}
    (h : namedArgument? source group = some (name, value)) :
    ∃ first equals more, group = first :: equals :: more ∧ equals.is .operator ['='] = true ∧
      Text.unquote ['\x60', '\x22', '\x27'] first.text = name := by
  match group with
  | [] => cases h
  | [_] => cases h
  | [_, _] => cases h
  | first :: equals :: next :: more =>
    rw [namedArgument?] at h
    split at h
    · next hequals =>
      exact ⟨first, equals, next :: more, rfl, hequals, congrArg Prod.fst (Option.some.inj h)⟩
    · cases h

/-- A name that is one token, an equals sign and a value make up one argument. -/
theorem splitArguments_option {first : Token} {ts : List Token} (hcomment : first.kind ≠ .comment)
    (hcomma : first.is .punctuation [','] = false) (hneutral : Neutral 0 ts) :
    splitArguments 0 (first :: ts) = [first :: ts] := by
  have hrest := hneutral.split (depthAfter 0 first) (Nat.zero_le _) []
  rw [List.append_nil, splitArguments, prependTokens_cons, List.append_nil] at hrest
  rw [splitArguments, if_neg hcomment, if_neg (by simp [hcomma]), hrest]
  rfl

/-- A token that is no round bracket and does not end the chunk does not count. -/
theorem Cursor.closingOffset?_other {t : Token} (hboundary : t.isBoundary = false)
    (hopen : t.is .punctuation ['('] = false) (hclose : t.is .punctuation [')'] = false)
    (depth : Nat) (rest : List Token) :
    closingOffset? ['('] [')'] depth (t :: rest) =
      (closingOffset? ['('] [')'] depth rest).map (· + 1) := by
  simp [closingOffset?, hboundary, hopen, hclose]

/-- The tokens between the brackets of a call with one option. -/
structure OneOption (source : Text) (kind : TokenKind) (written value : Text) (first equals : Token)
    (ts : List Token) : Prop where
  /-- the name as it is written -/
  first_is : first.is kind written = true
  /-- the equals sign behind it -/
  equals_is : equals.is .operator ['='] = true
  /-- no argument is cut behind the name -/
  neutral : Neutral 0 (equals :: ts)
  /-- the option that is read -/
  named : namedArgument? source (first :: equals :: ts) =
    some (Text.unquote ['\x60', '\x22', '\x27'] written, value)
  /-- nothing is read that is not written -/
  mem_text : ∀ t ∈ first :: equals :: ts, ∀ c ∈ t.text,
    c ∈ OptionMap.argument (written, value) ++ [')']

/-- The tokens of a call with one option whose name is one token as it is written. -/
theorem exists_codeTokens_option (h : shape.IsPlain) (hne : shape.package ≠ shape.object)
    (qualifier : Qualifier) (hfeeds : source.FeedsOnly) (hvalue : IsWord value) {below : List Text}
    (hbelow : below = [] ∨ below = [[]])
    (hlines : source.lines =
      (shape.opening qualifier ++ (OptionMap.argument (written, value) ++ [')'])) :: below)
    (hname : ∀ column, ReadAs 0 column written [tokenAt kind 0 column written]
      (' ' :: ('=' :: ' ' :: value ++ [')']))) (fence : Text) :
    ∃ before object dollar method bracket, LeadsIn shape before object dollar method bracket ∧
      ∃ first equals ts close, OneOption source kind written value first equals ts ∧
        close.is .punctuation [')'] = true ∧
        (Lexer.closedBy fence).codeTokens source = before ++ object :: dollar :: method ::
          bracket :: (first :: equals :: ts ++ [close]) := by
  obtain ⟨before, object, dollar, method, bracket, hleads, hopening⟩ :=
    exists_readAs_opening h hne 0 0 qualifier
  obtain ⟨equals, ts, hequals, hneutral, hnamed, hargument⟩ :=
    exists_readAs_assignment hfeeds (.word hvalue) (by rw [hlines]; exact List.getElem?_cons_zero)
      (stopsWord_cons (by decide) []) (hname _)
  have hmem := hargument.mem_text
  rw [← Nat.zero_add (shape.opening qualifier).length] at hargument
  obtain ⟨close, hcloseis, hclose⟩ : ∃ close : Token, close.is .punctuation [')'] = true ∧
      ReadAs 0 (0 + (shape.opening qualifier).length +
        (OptionMap.argument (written, value)).length) [')'] [close] [] :=
    ⟨_, is_tokenAt _ _ _ _, readAs_punctuation (by decide)⟩
  have hline := ((hopening _).append (hargument.append hclose)).lexCode_eq
  obtain ⟨left, -, hleft, htokens⟩ := exists_codeTokens_line hbelow hlines fence
  rw [hleft (by rw [hline]), hline, List.append_nil, Nat.zero_add] at htokens
  refine ⟨before, object, dollar, method, bracket, hleads, _, equals, ts, close,
    ⟨is_tokenAt _ _ _ _, hequals, hneutral, hnamed, hmem⟩, hcloseis, ?_⟩
  rw [htokens]
  simp

namespace LeadsIn

variable {before ts : List Token} {object dollar method bracket first equals close : Token}

/-- The option of such a call is read under the name that is written, without quotes. -/
theorem readOptions_option (h : LeadsIn shape before object dollar method bracket)
    (hoption : OneOption source kind written value first equals ts)
    (hclose : close.is .punctuation [')'] = true)
    (htokens : lexer.codeTokens source = before ++ object :: dollar :: method :: bracket ::
      (first :: equals :: ts ++ [close]))
    (hcomment : kind ≠ .comment) (hmark : written ∉ [['('], [')'], [',']]) :
    readOptions lexer shape source =
      .ok (.ofList [(Text.unquote ['\x60', '\x22', '\x27'] written, value)]) := by
  obtain ⟨hkind, htext⟩ := Token.is_iff.mp hoption.first_is
  have hother (mark : Text) (hin : mark ∈ [['('], [')'], [',']]) :
      first.is .punctuation mark = false := by
    have hne : written ≠ mark := fun heq => hmark (heq ▸ hin)
    simp [Token.is, htext, hne]
  have hboundary : first.isBoundary = false :=
    lexer.codeTokens_isBoundary source first (by rw [htokens]; simp)
  have hfirst : Closes [first] :=
    Cursor.closingOffset?_other hboundary (hother _ (by decide)) (hother _ (by decide))
  have hcloses : Closes (first :: equals :: ts) := hfirst.append hoption.neutral.closing
  have hsplit := splitArguments_option (hkind ▸ hcomment) (hother _ (by decide)) hoption.neutral
  rw [h.readOptions_eq htokens (hcloses.closingOffset?_eq hclose []), hsplit, List.filterMap_cons,
    hoption.named, List.filterMap_nil]

/-- With an opening bracket for a name, the call is not closed, and no other call is there. -/
theorem callAt?_eq_none_of_opening (h : LeadsIn shape before object dollar method bracket)
    (hoption : OneOption source .punctuation ['('] value first equals ts)
    (hclose : close.is .punctuation [')'] = true) (hvalue : IsWord value) :
    callAt? shape (before ++ object :: dollar :: method :: bracket ::
      (first :: equals :: ts ++ [close])) = none := by
  have hnone : Cursor.closingOffset? ['('] [')'] 0 (first :: equals :: ts ++ [close]) = none := by
    rw [List.cons_append, Cursor.closingOffset?_bracket hoption.first_is,
      hoption.neutral.closing, (Cursor.closingOffset?_close hclose 0 []).2]
    rfl
  rw [h.callAt?_later hnone, later, Option.map_eq_none_iff, Option.eq_none_iff_forall_ne_some]
  rintro ⟨j, k⟩ hcall
  obtain ⟨dollar', hdollar, hdollaris⟩ := (CallAt.of_callAt? hcall).1.dollar
  obtain ⟨hkind, htext⟩ := Token.is_iff.mp hdollaris
  rcases List.mem_append.mp (List.mem_of_getElem? hdollar) with hmem | hmem
  · have hdollar : '$' ∈ dollar'.text := by
      rw [htext]
      exact List.mem_singleton_self _
    have hchar := hoption.mem_text dollar' hmem '$' hdollar
    have hword : '$' ∉ value := fun hin => absurd (hvalue.2 _ hin) (by decide)
    simp [OptionMap.argument, hword] at hchar
  · rw [List.mem_singleton.mp hmem, (Token.is_iff.mp hclose).1] at hkind
    cases hkind

/-- With a closing bracket for a name, the call ends before the equals sign. -/
theorem readOptions_of_closing (h : LeadsIn shape before object dollar method bracket)
    (hoption : OneOption source .punctuation [')'] value first equals ts)
    (htokens : lexer.codeTokens source = before ++ object :: dollar :: method :: bracket ::
      (first :: equals :: ts ++ [close])) :
    readOptions lexer shape source = .ok .empty := by
  have hclosing : Cursor.closingOffset? ['('] [')'] 0
      ([] ++ first :: (equals :: ts ++ [close])) = some ([] : List Token).length :=
    Closes.nil.closingOffset?_eq hoption.first_is _
  have htokens' : lexer.codeTokens source = before ++ object :: dollar :: method :: bracket ::
      ([] ++ first :: (equals :: ts ++ [close])) := htokens
  exact h.readOptions_eq htokens' hclosing

/-- With a comma for a name, the equals sign comes first in its argument. -/
theorem readOptions_of_comma (h : LeadsIn shape before object dollar method bracket)
    (hoption : OneOption source .punctuation [','] value first equals ts)
    (hclose : close.is .punctuation [')'] = true)
    (htokens : lexer.codeTokens source = before ++ object :: dollar :: method :: bracket ::
      (first :: equals :: ts ++ [close])) :
    readOptions lexer shape source =
      .ok (.ofList ([[], equals :: ts].filterMap (namedArgument? source))) := by
  have hseparated : Separated [[], equals :: ts] (first :: equals :: ts) :=
    .cons [] hoption.first_is (.last (equals :: ts))
  have hneutral : ∀ group ∈ [[], equals :: ts], Neutral 0 group := by
    rw [List.forall_mem_cons, List.forall_mem_singleton]
    exact ⟨Neutral.nil, hoption.neutral⟩
  have hcloses : Closes (first :: equals :: ts) := (hseparated.neutral hneutral).closing
  rw [h.readOptions_eq htokens (hcloses.closingOffset?_eq hclose []),
    hseparated.splitArguments_eq hneutral]

/-- A round bracket or a comma is not read as a name. -/
theorem get?_ne_of_mark (h : LeadsIn shape before object dollar method bracket)
    (hoption : OneOption source .punctuation written value first equals ts)
    (hclose : close.is .punctuation [')'] = true)
    (htokens : lexer.codeTokens source = before ++ object :: dollar :: method :: bracket ::
      (first :: equals :: ts ++ [close]))
    (hvalue : IsWord value) (hmark : written ∈ [['('], [')'], [',']]) {m : OptionMap}
    (hm : readOptions lexer shape source = .ok m) : m.get? written ≠ some value := by
  intro hget
  simp only [List.mem_cons, List.not_mem_nil, or_false] at hmark
  rcases hmark with rfl | rfl | rfl
  · obtain ⟨j, k, hcall⟩ := callAt?_of_readOptions hm hget
    rw [htokens, h.callAt?_eq_none_of_opening hoption hclose hvalue] at hcall
    cases hcall
  · rw [h.readOptions_of_closing hoption htokens] at hm
    cases hm
    cases hget
  · rw [h.readOptions_of_comma hoption hclose htokens] at hm
    cases hm
    obtain ⟨group, hgroup, hnamed⟩ :=
      List.mem_filterMap.mp (OptionMap.mem_of_get?_ofList hget)
    obtain ⟨first', equals', more, rfl, -, hname⟩ := exists_of_namedArgument? hnamed
    simp only [List.mem_cons, List.not_mem_nil, or_false, reduceCtorEq, false_or] at hgroup
    obtain ⟨rfl, -⟩ := List.cons.inj hgroup
    rw [(Token.is_iff.mp hoption.equals_is).2] at hname
    exact absurd hname (by decide)

end LeadsIn

/-! ## Names that are read -/

/-- The last of some characters in a text. -/
theorem exists_append_of_not_mem {xs ys zs ws : Text} {c : Char}
    (h : xs ++ c :: ys = zs ++ c :: ws) (hlast : c ∉ ws) : ∃ q, zs = xs ++ q := by
  rcases List.append_eq_append_iff.mp h with ⟨q, hzs, -⟩ | ⟨q, hxs, hrest⟩
  · exact ⟨q, hzs⟩
  · cases q with
    | nil => exact ⟨[], by rw [hxs, List.append_nil, List.append_nil]⟩
    | cons d q =>
      obtain ⟨-, rfl⟩ := List.cons.inj hrest
      exact absurd (List.mem_append_right q List.mem_cons_self) hlast

/-- A text that stands one character further on in front of a character consists of it. -/
theorem eq_of_mem_of_append_eq_cons {t : Text} {c d : Char} (h : t ++ [d] = c :: t) :
    ∀ e ∈ t, e = d := by
  induction t generalizing c with
  | nil => exact fun e he => absurd he List.not_mem_nil
  | cons e t ih =>
    obtain ⟨-, hrest⟩ := List.cons.inj h
    have hall := ih hrest
    have hlast : e ∈ t ++ [d] := by
      rw [show t ++ [d] = e :: t from hrest]
      exact List.mem_cons_self
    have he : e = d := by
      rcases List.mem_append.mp hlast with hmem | hmem
      · exact hall e hmem
      · exact List.mem_singleton.mp hmem
    exact List.forall_mem_cons.mpr ⟨he, hall⟩

/-- Two tokens that are read of a line, one after the other, stand in it in that order. -/
theorem exists_cut_of_sublist {line : Text} {row column : Nat} {first second : Token}
    (hfeed : '\n' ∉ line)
    (hpair : List.Sublist [first, second] (lexCode Rule.all row column line).1) :
    first ∈ (lexCode Rule.all row column line).1 ∧
      ∃ p q r, line = p ++ first.text ++ q ++ (second.text ++ r) ∧
        first.start = ⟨row, column + p.length⟩ := by
  obtain ⟨front, behind, hcut, hfirst, hsecond⟩ := List.cons_sublist_iff.mp hpair
  refine ⟨by rw [hcut]; exact List.mem_append_left behind hfirst, ?_⟩
  obtain ⟨front, middle, rfl⟩ := List.append_of_mem hfirst
  obtain ⟨middle', after, rfl⟩ := List.append_of_mem (List.singleton_sublist.mp hsecond)
  rw [List.append_assoc, List.cons_append] at hcut
  obtain ⟨p, rest, hline, hstart, -, hread, -⟩ := lexCode_cut hfeed hcut
  have hfeed' : '\n' ∉ rest := fun hin => hfeed (by rw [hline]; simp [hin])
  have hbehind : (lexCode Rule.all row (column + p.length + first.text.length) rest).1 =
      (middle ++ middle') ++ second :: after := by
    rw [List.append_assoc]
    exact congrArg Prod.fst hread
  obtain ⟨q, r, hrest, -⟩ := lexCode_cut hfeed' hbehind
  refine ⟨p, q, r, ?_, hstart⟩
  rw [hline, hrest]
  simp

/-- Where a name and an equals sign are read of a line with one equals sign behind the name, in this
order, the name is the first token of the line. -/
theorem lexeme?_of_sublist {column : Nat} {tail : Text} (hne : name ≠ []) (hfeed : '\n' ∉ name)
    (htail : '=' ∉ tail ∧ '\n' ∉ tail) {first equals : Token}
    (hpair : List.Sublist [first, equals]
      (lexCode Rule.all 0 column (name ++ ' ' :: '=' :: tail)).1)
    (hequals : equals.text = ['='])
    (hname : Text.unquote ['\x60', '\x22', '\x27'] first.text = name) :
    (∀ c ∈ name.head?, isWhiteSpace c = false) ∧
      lexeme? Rule.all (name ++ ' ' :: '=' :: tail) = some (first.kind, name.length) := by
  have hfeed' : '\n' ∉ name ++ ' ' :: '=' :: tail := by simp [hfeed, htail.2]
  obtain ⟨hmem, p, p', r, htext, hstart⟩ := exists_cut_of_sublist hfeed' hpair
  rw [hequals] at htext
  -- what stands in front of the equals sign holds the name token
  obtain ⟨q, hq⟩ : ∃ q, name ++ [' '] = (p ++ first.text ++ p') ++ q := by
    have hequal : (p ++ first.text ++ p') ++ '=' :: r = (name ++ [' ']) ++ '=' :: tail := by
      simpa using htext.symm
    exact exists_append_of_not_mem hequal htail.1
  have hlength := congrArg List.length hq
  simp only [List.length_append, List.length_singleton] at hlength
  have htoken : first.text = name := by
    rcases Text.unquote_eq_self_or ['\x60', '\x22', '\x27'] first.text with hsame | hlonger
    · rw [← hsame, hname]
    · rw [hname] at hlonger
      omega
  have hhead := head_of_mem_lexCode hmem
  rw [htoken] at hhead hlength hq
  refine ⟨hhead, ?_⟩
  cases p with
  | nil =>
    have hlexeme := lexeme?_of_mem_lexCode hmem hstart
    rwa [htoken] at hlexeme
  | cons c p =>
    -- the name would consist of spaces
    exfalso
    obtain ⟨rfl, rfl, rfl⟩ : p = [] ∧ p' = [] ∧ q = [] := by
      rw [List.length_cons] at hlength
      refine ⟨?_, ?_, ?_⟩ <;> exact List.eq_nil_of_length_eq_zero (by omega)
    have hspaces := eq_of_mem_of_append_eq_cons (t := name) (c := c) (d := ' ') (by simpa using hq)
    obtain ⟨d, name, rfl⟩ := List.exists_cons_of_ne_nil hne
    have hd := hhead d rfl
    rw [hspaces d List.mem_cons_self] at hd
    exact absurd hd (by decide)

/-- A pair in two lists in a row is in the first if the second has nothing like its last part. -/
theorem sublist_of_sublist_append {α : Type} {x y : α} {xs ys : List α} (hy : y ∉ ys)
    (h : List.Sublist [x, y] (xs ++ ys)) : List.Sublist [x, y] xs := by
  obtain ⟨us, vs, huv, hus, hvs⟩ := List.sublist_append_iff.mp h
  cases vs with
  | nil =>
    rw [List.append_nil] at huv
    rwa [huv]
  | cons v vs =>
    have hlast := congrArg List.getLast? huv
    rw [List.getLast?_append_of_ne_nil _ (List.cons_ne_nil v vs)] at hlast
    exact absurd (hvs.subset (List.mem_of_getLast? hlast.symm)) hy

/-- The name of an option that is read, and the equals sign behind it, stand in the brackets. -/
theorem LeadsIn.exists_sublist_of_get? {before ts : List Token}
    {object dollar method bracket : Token} (h : LeadsIn shape before object dollar method bracket)
    (htokens : lexer.codeTokens source =
      before ++ object :: dollar :: method :: bracket :: ts) {m : OptionMap}
    (hm : readOptions lexer shape source = .ok m) (hget : m.get? name = some value) :
    ∃ first equals, List.Sublist [first, equals] ts ∧ equals.is .operator ['='] = true ∧
      Text.unquote ['\x60', '\x22', '\x27'] first.text = name := by
  obtain ⟨j, k, hcall⟩ := callAt?_of_readOptions hm hget
  rw [readOptions_of_callAt? hcall] at hm
  cases hm
  obtain ⟨group, hgroup, hnamed⟩ := List.mem_filterMap.mp (OptionMap.mem_of_get?_ofList hget)
  obtain ⟨first, equals, more, rfl, hequals, hfirst⟩ := exists_of_namedArgument? hnamed
  refine ⟨first, equals, ?_, hequals, hfirst⟩
  -- the call starts no earlier than its object, so its arguments stand behind the bracket
  have hj : before.length ≤ j := by
    by_contra hlt
    obtain ⟨t, ht, hobject⟩ := (CallAt.of_callAt? hcall).1.object
    rw [htokens, List.getElem?_append_left (by omega)] at ht
    rw [(h.before t (List.mem_of_getElem? ht)).2] at hobject
    cases hobject
  obtain ⟨n, rfl⟩ := Nat.exists_eq_add_of_le hj
  have harguments := (sublist_of_mem_splitArguments hgroup).trans
    ((List.take_sublist k _).drop (before.length + n + 4))
  rw [htokens, Nat.add_right_comm, ← List.drop_drop, ← List.drop_drop,
    List.drop_left] at harguments
  have htwo : List.Sublist [first, equals] (first :: equals :: more) :=
    ((List.nil_sublist more).cons_cons equals).cons_cons first
  exact htwo.trans (harguments.trans (List.drop_sublist n ts))

/-- **A name that is read is one token** of the call, whatever it is made of. -/
theorem exists_lexeme?_of_read (h : shape.IsPlain) (hne : shape.package ≠ shape.object)
    (hname : name ≠ []) (hfeed : '\n' ∉ name) (hvalue : IsWord value) {qualifier : Qualifier}
    {below : List Text} (hbelow : below = [] ∨ below = [[]])
    (hlines : source.lines =
      (shape.opening qualifier ++ (OptionMap.argument (name, value) ++ [')'])) :: below)
    {fence : Text} {m : OptionMap} (hm : readOptions (.closedBy fence) shape source = .ok m)
    (hget : m.get? name = some value) :
    (∀ c ∈ name.head?, isWhiteSpace c = false) ∧
      ∃ kind, lexeme? Rule.all (name ++ ' ' :: '=' :: (' ' :: value ++ [')'])) =
        some (kind, name.length) := by
  obtain ⟨before, object, dollar, method, bracket, hleads, hopening⟩ :=
    exists_readAs_opening h hne 0 0 qualifier
  obtain ⟨left, hleft, -, htokens⟩ := exists_codeTokens_line hbelow hlines fence
  rw [hopening, precede_fst, Nat.zero_add, List.append_assoc, List.append_assoc] at htokens
  obtain ⟨first, equals, hpair, hequals, hfirst⟩ :=
    hleads.exists_sublist_of_get? htokens hm hget
  obtain ⟨hkind, htext⟩ := Token.is_iff.mp hequals
  have hline : OptionMap.argument (name, value) ++ [')'] =
      name ++ ' ' :: '=' :: (' ' :: value ++ [')']) := by
    simp [OptionMap.argument]
  rw [hline] at hpair
  have hword : '=' ∉ ' ' :: value ++ [')'] ∧ '\n' ∉ ' ' :: value ++ [')'] := by
    have hequals : '=' ∉ value := fun hin => absurd (hvalue.2 _ hin) (by decide)
    have hfeed : '\n' ∉ value := fun hin => absurd (hvalue.2 _ hin) (by decide)
    simp [hequals, hfeed]
  -- what the line leaves open is a string
  have hoperator : equals ∉ left := by
    intro hin
    rw [hleft equals hin] at hkind
    cases hkind
  obtain ⟨hhead, hlexeme⟩ := lexeme?_of_sublist hname hfeed hword
    (sublist_of_sublist_append hoperator hpair) htext hfirst
  exact ⟨hhead, _, hlexeme⟩

/-! ## Reading again what was written -/

/-- The call that sets one option whose name stands in backticks. -/
def quotedCall (shape : CallShape) (name value : Text) : Text :=
  shape.opening .bare ++ (OptionMap.argument ('\x60' :: name ++ ['\x60'], value) ++ [')'])

/-- The one option that such a call sets. -/
def oneOption (name value : Text) : OptionMap := .ofList [(name, value)]

theorem get?_oneOption (key name value : Text) :
    (oneOption key value).get? name = if name = key then some value else none := by
  rw [oneOption, OptionMap.ofList, OptionMap.insertAll_cons]
  exact OptionMap.get?_insert .empty key value name

/-- An option is only read under a name without quotes. -/
theorem unquote_eq_of_get?_oneOption
    (h : (oneOption (Text.unquote ['\x60', '\x22', '\x27'] name) value).get? name = some value) :
    Text.unquote ['\x60', '\x22', '\x27'] name = name := by
  rw [get?_oneOption] at h
  split at h
  · next hsame => exact hsame.symm
  · cases h

/-- A round bracket or a comma is punctuation. -/
theorem kind_eq_of_mark (hmark : name ∈ [['('], [')'], [',']])
    (h : lexeme? Rule.all name = some (kind, name.length)) : kind = .punctuation := by
  simp only [List.mem_cons, List.not_mem_nil, or_false] at hmark
  rcases hmark with rfl | rfl | rfl <;> exact (Prod.mk.inj (Option.some.inj h)).1.symm

theorem unbroken_argument (hname : name.Unbroken) (hvalue : IsWord value) :
    (OptionMap.argument (name, value) ++ [')']).Unbroken := by
  have hequals : Text.Unbroken [' ', '=', ' '] := by decide
  exact ((hname.append hequals).append (PlainValue.word hvalue).unbroken).append (by decide)

/-- The lines of a call in which the name of an option stands in backticks. -/
theorem lines_quotedCall (hname : name.Unbroken) (hvalue : IsWord value) :
    (quotedCall (Config.shape {}) name value).FeedsOnly ∧
      (quotedCall (Config.shape {}) name value).lines =
        [quotedCall (Config.shape {}) name value] := by
  have hquoted : Text.Unbroken ('\x60' :: name ++ ['\x60']) := by
    have htick : Text.Unbroken ['\x60'] := by decide
    exact (htick.append hname).append htick
  have hopening : Text.Unbroken ((Config.shape {}).opening .bare) := by decide +kernel
  have hline : Text.Unbroken (quotedCall (Config.shape {}) name value) :=
    hopening.append (unbroken_argument hquoted hvalue)
  exact ⟨hline.feedsOnly, Text.lines_of_not_mem hline.feed_not_mem⟩

/-- The lines of what is written for one option. -/
theorem lines_render_oneOption (hname : name.Unbroken) (hvalue : IsWord value) :
    ((oneOption name value).render {}).FeedsOnly ∧
      ((oneOption name value).render {}).lines =
        [(Config.shape {}).opening .exported ++ (OptionMap.argument (name, value) ++ [')']),
          []] := by
  have hsize : (oneOption name value).size ≤ Config.singleLineMax {} := Nat.le_succ 1
  have hrender : (oneOption name value).render {} = Text.ofLines
      [(Config.shape {}).opening .exported ++ (OptionMap.argument (name, value) ++ [')']), []] := by
    rw [OptionMap.render_eq_ofLines {} (List.cons_ne_nil (name, value) []),
      OptionMap.writtenLines, if_pos hsize, ← CallShape.head_append]
    simp [oneOption, OptionMap.arguments, OptionMap.ofList, OptionMap.insertAll, OptionMap.insert,
      OptionMap.empty, Keyed.put]
  have hopening : Text.Unbroken ((Config.shape {}).opening .exported) := by decide +kernel
  have hlines : ∀ line ∈ [(Config.shape {}).opening .exported ++
      (OptionMap.argument (name, value) ++ [')']), []], Text.Unbroken line := by
    intro line hline
    simp only [List.mem_cons, List.not_mem_nil, or_false] at hline
    rcases hline with rfl | rfl
    · exact hopening.append (unbroken_argument hname hvalue)
    · exact fun c hc => absurd hc List.not_mem_nil
  rw [hrender]
  exact ⟨Text.feedsOnly_ofLines hlines,
    Text.lines_ofLines (List.cons_ne_nil _ _) fun line hline => (hlines line hline).feed_not_mem⟩

/-- An option whose name stands in backticks is read under that name. -/
theorem readOptions_quotedCall (htick : '\x60' ∉ name) (hescape : '\\' ∉ name)
    (hunbroken : name.Unbroken) (hvalue : IsWord value) :
    Config.readOptions {} (quotedCall (Config.shape {}) name value) =
      .ok (oneOption name value) := by
  obtain ⟨hfeeds, hlines⟩ := lines_quotedCall hunbroken hvalue
  obtain ⟨before, object, dollar, method, bracket, hleads, first, equals, ts, close, hoption,
    hclose, htokens⟩ := exists_codeTokens_option Config.isPlain_default.shape (by decide) .bare
      hfeeds hvalue (Or.inl rfl) hlines (fun _ => readAs_quotedName htick hescape)
      (Config.closingFence {})
  have hread := hleads.readOptions_option hoption hclose htokens
    (TokenKind.ofLexeme_ne (Or.inl rfl) _).2.1 (by simp)
  rw [Text.unquote_quoted (by decide)] at hread
  exact hread

/-- **Which names survive when they are written and read again.** An option whose name stands in
backticks is read under that name, whatever its characters are. What is written for it is read as
the same option exactly if the name does without backticks. -/
theorem Config.readOptions_quotedName (hne : name ≠ []) (htick : '\x60' ∉ name)
    (hescape : '\\' ∉ name) (hunbroken : name.Unbroken) (hvalue : IsWord value) :
    Config.readOptions {} (quotedCall (Config.shape {}) name value) = .ok (oneOption name value) ∧
      ((∃ m, Config.readOptions {} ((oneOption name value).render {}) = .ok m ∧
          m.get? name = some value) ↔ IsBareName name) ∧
      (IsBareName name →
        Config.readOptions {} ((oneOption name value).render {}) = .ok (oneOption name value)) := by
  obtain ⟨hfeeds, hlines⟩ := lines_render_oneOption hunbroken hvalue
  have hshape : (Config.shape {}).package ≠ (Config.shape {}).object := by decide
  have hpercent : '%' ∉ '=' :: (' ' :: value ++ [')']) := by
    have hin : '%' ∉ value := fun hin => absurd (hvalue.2 _ hin) (by decide)
    simp [hin]
  have hbare := isBareName_iff hne htick hunbroken.feed_not_mem hpercent
  have htick' : name.head? ≠ some '\x60' := fun h => htick (List.mem_of_mem_head? h)
  -- when the name is one token, so are the parts of the call
  have htokens {kind : TokenKind} (hwhite : ∀ c ∈ name.head?, isWhiteSpace c = false)
      (hlexeme : lexeme? Rule.all (name ++ ' ' :: '=' :: (' ' :: value ++ [')'])) =
        some (kind, name.length)) :=
    exists_codeTokens_option Config.isPlain_default.shape hshape .exported hfeeds hvalue
      (Or.inr rfl) hlines (fun _ => readAs_of_lexeme? hwhite hlexeme) (Config.closingFence {})
  have hwrite (h : IsBareName name) :
      Config.readOptions {} ((oneOption name value).render {}) = .ok (oneOption name value) := by
    obtain ⟨hmark, hunquote, hwhite, kind, hlexeme⟩ := hbare.mp h
    obtain ⟨before, object, dollar, method, bracket, hleads, first, equals, ts, close, hoption,
      hclose, hcode⟩ := htokens hwhite hlexeme
    have hcomment :=
      ((lexeme?_append_space_iff hne htick' hunbroken.feed_not_mem hpercent).mp hlexeme).1
    have hread := hleads.readOptions_option hoption hclose hcode hcomment hmark
    rw [hunquote] at hread
    exact hread
  refine ⟨readOptions_quotedCall htick hescape hunbroken hvalue, ⟨?_, fun h => ?_⟩, hwrite⟩
  · rintro ⟨m, hm, hget⟩
    obtain ⟨hwhite, kind, hlexeme⟩ := exists_lexeme?_of_read Config.isPlain_default.shape hshape hne
      hunbroken.feed_not_mem hvalue (Or.inr rfl) hlines hm hget
    obtain ⟨before, object, dollar, method, bracket, hleads, first, equals, ts, close, hoption,
      hclose, hcode⟩ := htokens hwhite hlexeme
    obtain ⟨hcomment, halone⟩ :=
      (lexeme?_append_space_iff hne htick' hunbroken.feed_not_mem hpercent).mp hlexeme
    have hmark : name ∉ [['('], [')'], [',']] := by
      intro hmark
      obtain rfl := kind_eq_of_mark hmark halone
      exact hleads.get?_ne_of_mark hoption hclose hcode hvalue hmark hm hget
    have hread := hleads.readOptions_option hoption hclose hcode hcomment hmark
    obtain rfl := Except.ok.inj (hread.symm.trans hm)
    have hunquote := unquote_eq_of_get?_oneOption hget
    exact hbare.mpr ⟨hmark, hunquote, hwhite, kind, hlexeme⟩
  · refine ⟨_, hwrite h, ?_⟩
    rw [get?_oneOption, if_pos rfl]

/-- An operator between percent signs is one token, and survives. -/
theorem Config.readOptions_quotedName_sample :
    let name := "%in%".toList
    let value := "7".toList
    (name ≠ [] ∧ '\x60' ∉ name ∧ '\\' ∉ name ∧ Text.Unbroken name ∧ IsWord value) ∧
      IsBareName name ∧
      Config.readOptions {} (quotedCall (Config.shape {}) name value) =
        .ok (oneOption name value) ∧
      Config.readOptions {} ((oneOption name value).render {}) = .ok (oneOption name value) := by
  intro name value
  have hbare : IsBareName name :=
    ⟨by decide +kernel, .operator, by decide, by decide, by decide +kernel⟩
  have hunbroken : Text.Unbroken name := by decide +kernel
  have hvalue : IsWord value := by decide +kernel
  have hname : name ≠ [] ∧ '\x60' ∉ name ∧ '\\' ∉ name := by decide +kernel
  obtain ⟨hread, -, hwrite⟩ :=
    Config.readOptions_quotedName hname.1 hname.2.1 hname.2.2 hunbroken hvalue
  exact ⟨⟨hname.1, hname.2.1, hname.2.2, hunbroken, hvalue⟩, hbare, hread, hwrite hbare⟩

/-- A name of two words is lost when it is written, and a name in quotes becomes another one. -/
theorem Config.readOptions_quotedName_lost :
    let spaced := "fig cap".toList
    let quoted := "'x'".toList
    let value := "1".toList
    Config.readOptions {} (quotedCall (Config.shape {}) spaced value) =
        .ok (oneOption spaced value) ∧
      (oneOption spaced value).render {} = "knitr::opts_chunk$set(fig cap = 1)\n".toList ∧
      Config.readOptions {} ((oneOption spaced value).render {}) = .ok .empty ∧
      Config.readOptions {} (quotedCall (Config.shape {}) quoted value) =
        .ok (oneOption quoted value) ∧
      Config.readOptions {} ((oneOption quoted value).render {}) =
        .ok (oneOption "x".toList value) := by
  decide +kernel

end RmdOptions
