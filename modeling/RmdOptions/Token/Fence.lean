import RmdOptions.Text.Basic

/-!
# Fences

A fenced block opens with a row of at least three backticks, which may be indented by exactly four
spaces. An R chunk is a block whose opening row goes on with a header in braces that starts with
the letter r. Blocks close at a row that holds the closing fence, possibly lengthened by repeating
its last character; the closing fence can be configured, the opening one cannot.

* `Fence.opensBlock` — a row that opens a block;
* `Fence.opensChunk` — a row that opens an R chunk;
* `Fence.closes` — a row that closes a block.
-/

namespace RmdOptions.Fence

/-- What follows the backticks of an opening row. -/
def afterTicks? (line : Text) : Option Text :=
  let unindented := (Text.after? [' ', ' ', ' ', ' '] line).getD line
  if 3 ≤ (unindented.takeWhile (· == '\x60')).length then
    some (unindented.dropWhile (· == '\x60'))
  else none

/-- Whether a line opens a fenced block. -/
def opensBlock (line : Text) : Bool := (afterTicks? line).isSome

/-- Whether a text is the rest of a header after its engine: nothing, or a separator and options on
the same line, then a closing brace that only white space follows. -/
def endsHeader (t : Text) : Bool :=
  match t.trimEnd.reverse with
  | '}' :: reversed =>
    match reversed.reverse with
    | [] => true
    | separator :: options =>
      (isWhiteSpace separator || separator == ',') && options.all (· != '\n')
  | _ => false

/-- Whether a line opens an R chunk: after the backticks and white space comes a brace, the letter
r, and the rest of a header. -/
def opensChunk (line : Text) : Bool :=
  match afterTicks? line with
  | none => false
  | some rest =>
    match rest.trimStart with
    | '{' :: engine :: more => (engine == 'r' || engine == 'R') && endsHeader more
    | _ => false

/-- Whether a line closes a block: without white space around them, it is the fence followed by any
number of copies of the fence's last character. A blank fence is closed by a blank line. -/
def closes (fence line : Text) : Bool :=
  match Text.after? fence.trim line.trim with
  | none => false
  | some more =>
    match fence.trim.getLast? with
    | none => more.isEmpty
    | some last => more.all (· == last)

end RmdOptions.Fence
