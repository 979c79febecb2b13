import LibXpf.Foundation.Buffers
import LibXpf.Platform

/-! # The scanner of command lines

One function scans for `xgetopt`, `xgetopt_long` and `xgetopt_long_only`. The state
between two calls is in global variables and in the order of `argv`. At the end of a
scan all the elements are scanned once more and the operands are moved behind the rest.
-/
namespace LibXpf.Getopt
open Buffers

/-- An element of `argv`: its buffer, and the characters before the null. -/
structure Arg where
  buffer : ℕ
  text : List UInt8
  nulFree : 0 ∉ text
  deriving DecidableEq

/-- The character at an index; the one behind the text is the null. -/
def charAt (text : List UInt8) (i : ℕ) : UInt8 := text.getD i 0

/-- A pointer to a character in the buffer of an element. -/
structure Ptr where
  buffer : ℕ
  offset : ℕ
  deriving DecidableEq

structure Xoption where
  name : Option (List UInt8)
  has_arg : Int32
  /-- The address of the variable, if there is one. -/
  flag : Option ℕ
  val : Int32
  deriving DecidableEq

def xrequired_argument : Int32 := 1
def xoptional_argument : Int32 := 2

/-- The option `{0, 0, 0, 0}` that ends a table. -/
def Xoption.terminates (x : Xoption) : Bool := x.name.isNone && x.flag.isNone && x.has_arg = 0 && x.val = 0

/-- The global variables, `argv`, and what a call writes to. -/
structure State where
  xoptind : ℕ
  xoptopt : Int32
  xopterr : Int32
  xoptreset : Int32
  xoptarg : Option Ptr
  xoptcur : Option Ptr
  argv : List Arg
  /-- The variable that `longindex` points to, if it is not null. -/
  longindex : Option Int32
  flags : ℕ → Int32
  stderr : List UInt8

def questionMark : Int32 := promote (ascii '?')
def colon : Int32 := promote (ascii ':')

/-- A message, which is only written if `xopterr` is not zero. -/
def State.complain (st : State) (message : List UInt8) : State :=
  if st.xopterr ≠ 0 then { st with stderr := st.stderr ++ message } else st

/-- The name behind the last slash. -/
def progname (path : List UInt8) : List UInt8 :=
  (path.reverse.takeWhile (· ≠ ascii '/')).reverse

section Head

/-- What the head of `optstring` asks for, and the characters behind it. -/
structure Mode where
  permute : Bool
  argofone : Bool
  missingarg : Bool
  optstring : List UInt8
  deriving DecidableEq

def parseHead (mode : Mode) : List UInt8 → Mode
  | [] => { mode with optstring := [] }
  | p :: rest =>
    if p = ascii '+' ∨ p = ascii '-' then
      parseHead { mode with permute := false, argofone := p = ascii '-' } rest
    else if p = ascii ':' then parseHead { mode with missingarg := true } rest
    else { mode with optstring := p :: rest }

def modeOf (optstring : List UInt8) : Mode := parseHead ⟨true, false, false, []⟩ optstring

end Head

section LongOptions

/-- The search of the table: the index of the last hit, the option there, and the number of hits. -/
def matchLong (given : List UInt8) :
    List Xoption → (index : ℕ) → (xo : Option (ℕ × Xoption)) → (hitcnt : ℕ) → Option (ℕ × Xoption) × ℕ
  | [], _, xo, hitcnt => (xo, hitcnt)
  | x :: rest, index, xo, hitcnt =>
    if x.terminates then (xo, hitcnt)
    else
      match x.name with
      | none => matchLong given rest (index + 1) xo hitcnt
      | some name =>
        if given.isPrefixOf name then
          if given.length = name.length then (some (index, x), 1)
          else matchLong given rest (index + 1) (some (index, x)) (hitcnt + 1)
        else matchLong given rest (index + 1) xo hitcnt

/-- The value of an option is returned, or stored where its flag points to. -/
def deliver (xo : Xoption) (st : State) : Int32 × State :=
  match xo.flag with
  | none => (xo.val, st)
  | some flag => (0, { st with flags := Function.update st.flags flag xo.val })

/-- The switch on `has_arg` for the option that is selected. -/
def longArgument (mode : Mode) (argc : ℕ) (program : List UInt8) (current : Arg) (xo : Xoption) (start : ℕ)
    (st : State) : Except Fault (Int32 × State) :=
  let p := current.text.drop start
  let st := { st with xoptind := st.xoptind + 1 }
  if xo.has_arg = xrequired_argument ∨ xo.has_arg = xoptional_argument then
    if ascii '=' ∈ p then
      let inline := start + (p.takeWhile (· ≠ ascii '=')).length + 1
      .ok (deliver xo { st with xoptarg := some ⟨current.buffer, inline⟩ })
    else if xo.has_arg = xoptional_argument then .ok (deliver xo st)
    else if st.xoptind < argc then do
      let argument ← read .outOfBounds st.argv st.xoptind
      .ok (deliver xo { st with xoptarg := some ⟨argument.buffer, 0⟩, xoptind := st.xoptind + 1 })
    else
      let message := program ++ chars ": option `" ++ current.text ++ chars "' requires an argument\n"
      .ok (if mode.missingarg then colon else questionMark, st.complain message)
  else .ok (deliver xo st)

/-- The index of the first character behind the dashes of an element. -/
def start (text : List UInt8) : ℕ := if charAt text 1 = ascii '-' then 2 else 1

/-- What an element is found to be before its argument is looked for. -/
inductive Resolution where
  /-- It is left to the short options. -/
  | short
  | unrecognized
  | ambiguous
  | selected (index : ℕ) (xo : Xoption)

def resolve (longopts : Option (List Xoption)) (only : Bool) (text : List UInt8) : Resolution :=
  match longopts with
  | none => .short
  | some table =>
    if charAt text 1 ≠ ascii '-' ∧ ¬ only then .short
    else
      match matchLong ((text.drop (start text)).takeWhile (· ≠ ascii '=')) table 0 none 0 with
      | (none, _) => if only then .short else .unrecognized
      | (some (index, xo), hitcnt) => if hitcnt > 1 then .ambiguous else .selected index xo

/-- The part `matching long opts`, which gives no result if it goes on to the short options. -/
def longOption (mode : Mode) (argc : ℕ) (program : List UInt8) (longopts : Option (List Xoption)) (only : Bool)
    (current : Arg) (st : State) : Except Fault (Option (Int32 × State)) :=
  if st.xoptcur ≠ none then .ok none
  else
    match resolve longopts only current.text with
    | .short => .ok none
    | .unrecognized =>
      let message := program ++ chars ": unrecognized option `" ++ current.text ++ chars "'\n"
      .ok (some (questionMark, { st.complain message with xoptind := st.xoptind + 1 }))
    | .ambiguous =>
      let message := program ++ chars ": option `" ++ current.text ++ chars "' is ambiguous\n"
      .ok (some (questionMark, { st.complain message with xoptind := st.xoptind + 1 }))
    | .selected index xo => do
      let st := { st with longindex := st.longindex.map fun _ => Int32.ofNat index }
      let reply ← longArgument mode argc program current xo (start current.text) st
      .ok (some reply)

end LongOptions

/-- The part `matching short opts`, for the character of the current element at `offset`. -/
def shortOption (mode : Mode) (argc : ℕ) (program : List UInt8) (current : Arg) (offset : ℕ) (st : State) :
    Except Fault (Int32 × State) :=
  let p := charAt current.text offset
  let more := charAt current.text (offset + 1) ≠ 0
  let st := { st with xoptarg := none }
  let d := mode.optstring.dropWhile (· ≠ p)
  if d ≠ [] ∧ charAt d 1 = ascii ':' then
    let st := { st with xoptind := st.xoptind + 1, xoptcur := none }
    let required := charAt d 2 ≠ ascii ':'
    if more then .ok (promote p, { st with xoptarg := some ⟨current.buffer, offset + 1⟩ })
    else if st.xoptind < argc then do
      let argument ← read .outOfBounds st.argv st.xoptind
      if required ∨ charAt argument.text 0 ≠ ascii '-' then
        .ok (promote p, { st with xoptarg := some ⟨argument.buffer, 0⟩, xoptind := st.xoptind + 1 })
      else .ok (promote p, st)
    else if required then
      let message := program ++ chars ": option requires an argument -- '" ++ [p] ++ chars "'\n"
      .ok (if mode.missingarg then colon else questionMark, { st.complain message with xoptopt := promote p })
    else .ok (promote p, st)
  else
    let st :=
      if more then { st with xoptcur := some ⟨current.buffer, offset + 1⟩ }
      else { st with xoptind := st.xoptind + 1, xoptcur := none }
    if d = [] then
      let message := program ++ chars ": invalid option -- '" ++ [p] ++ chars "'\n"
      let st := if mode.missingarg then st else st.complain message
      .ok (questionMark, { st with xoptopt := promote p })
    else .ok (promote p, st)

/-- How the loop over the elements ends: with a code to return, or behind its last element. -/
inductive Ended where
  | returned (code : Int32) (st : State)
  | left (st : State)

def scanLoop (mode : Mode) (argc : ℕ) (program : List UInt8) (longopts : Option (List Xoption)) (only : Bool) :
    ℕ → State → Except Fault Ended
  | 0, _ => .error .diverges
  | fuel + 1, st =>
    if st.xoptind < argc then do
      let current ← read .outOfBounds st.argv st.xoptind
      if st.xoptcur = none ∧ charAt current.text 0 ≠ ascii '-' then
        if mode.argofone then
          .ok (.returned 1 { st with xoptarg := some ⟨current.buffer, 0⟩, xoptind := st.xoptind + 1 })
        else if mode.permute then
          scanLoop mode argc program longopts only fuel { st with xoptind := st.xoptind + 1 }
        else .ok (.returned (-1) st)
      else if st.xoptcur = none ∧ (current.text = chars "-" ∨ current.text = chars "--") then
        .ok (.left { st with xoptind := st.xoptind + 1 })
      else do
        match ← longOption mode argc program longopts only current st with
        | some (code, st') => .ok (.returned code st')
        | none =>
          let offset :=
            match st.xoptcur with
            | some q => q.offset
            | none => start current.text
          let (code, st') ← shortOption mode argc program current offset st
          .ok (.returned code st')
    else .ok (.left st)

section Permutation

/-- The copy of a table for the second scan. -/
def cloneLongopts (longopts : List Xoption) : List Xoption :=
  (longopts.takeWhile fun x => !x.terminates).map fun x => ⟨x.name, x.has_arg, none, 0x5299⟩

/-- The elements behind the one at `i`, up to `argc`, move forward by one. -/
def rotate (argv : List Arg) (i argc : ℕ) : List Arg :=
  argv.take i ++ (argv.take argc).drop (i + 1) ++ argv.drop (argc - 1)

/-- The loop of the second scan, which detaches an element whenever the scan returns -1. -/
def permuteLoop (impl : ℕ → State → Except Fault (Int32 × State)) :
    ℕ → (argc : ℕ) → (nonopts : List Arg) → State → Except Fault State
  | 0, _, _, _ => .error .diverges
  | fuel + 1, argc, nonopts, st => do
    let (code, st') ← impl argc st
    if code = -1 then
      if st'.xoptind < argc then
        let detached ← read .outOfBounds st'.argv st'.xoptind
        permuteLoop impl fuel (argc - 1) (nonopts ++ [detached])
          { st' with argv := rotate st'.argv st'.xoptind argc, xoptcur := none }
      else .ok { st' with argv := st'.argv.take argc ++ nonopts ++ st'.argv.drop (argc + nonopts.length) }
    else permuteLoop impl fuel argc nonopts st'

/-- The head of `optstring` for the second scan. -/
def plusOptstring (optstring : Option (List UInt8)) : List UInt8 :=
  ascii '+' :: (optstring.getD []).dropWhile fun p => p = ascii '+' || p = ascii '-'

/-- Every call of the second scan moves over a character or an element. -/
def xgetopt_permute (impl : List UInt8 → Option (List Xoption) → ℕ → State → Except Fault (Int32 × State))
    (argc : ℕ) (optstring : Option (List UInt8)) (longopts : Option (List Xoption)) (st : State) :
    Except Fault State := do
  let calls := (st.argv.map fun arg => arg.text.length + 1).sum + 1
  let st' ← permuteLoop (impl (plusOptstring optstring) (longopts.map cloneLongopts)) calls argc []
    { st with xopterr := 0, xoptreset := 1, longindex := none }
  .ok { st' with xopterr := st.xopterr, longindex := st.longindex }

/-- The pointer into the middle of an element counts only if it points into the current one. -/
def inRange (current : Arg) (q : Ptr) : Bool := q.buffer = current.buffer && q.offset < current.text.length

/-- The end of a scan. -/
def finishScan (impl : List UInt8 → Option (List Xoption) → ℕ → State → Except Fault (Int32 × State)) (mode : Mode)
    (longopts : Option (List Xoption)) (argc : ℕ) (st : State) : Except Fault (Int32 × State) :=
  if mode.permute then do
    let st' ← xgetopt_permute impl argc (some mode.optstring) longopts st
    .ok (-1, st')
  else .ok (-1, st)

/-- What follows the loop over the elements. -/
def conclude (finish : State → Except Fault (Int32 × State)) : Ended → Except Fault (Int32 × State)
  | .returned code st => .ok (code, st)
  | .left st => finish st

/-- The scanner calls itself at the end of a scan that permutes, so it has a depth. -/
def xgetopt_impl : (depth : ℕ) → (only : Bool) → (optstring : Option (List UInt8)) →
    (longopts : Option (List Xoption)) → (argc : ℕ) → State → Except Fault (Int32 × State)
  | 0, _, _, _, _, _ => .error .diverges
  | depth + 1, only, optstring, longopts, argc, st => do
    let path ← read .outOfBounds st.argv 0
    let st :=
      if st.xoptreset ≠ 0 then
        { st with xoptreset := 0, xoptcur := none, xoptind := 0, xoptarg := none, xoptopt := 0 }
      else st
    let mode := modeOf (optstring.getD [])
    let st := { st with xoptind := max st.xoptind 1, xoptarg := none }
    let finish := finishScan (fun pstr x => xgetopt_impl depth only (some pstr) x) mode longopts argc
    if st.xoptind ≥ argc then finish { st with xoptind := argc }
    else do
      let current ← read .outOfBounds st.argv st.xoptind
      let st := { st with xoptcur := st.xoptcur.filter (inRange current) }
      let ended ← scanLoop mode argc (progname path.text) longopts only (argc - st.xoptind + 1) st
      conclude finish ended

end Permutation

/-- The three functions of the interface, with the arguments that a program passes in each call. -/
inductive Command where
  | xgetopt (optstring : Option (List UInt8))
  | xgetopt_long (optstring : Option (List UInt8)) (longopts : Option (List Xoption))
  | xgetopt_long_only (optstring : Option (List UInt8)) (longopts : Option (List Xoption))

/-- One call. The second scan is at depth one and does not permute. -/
def Command.call : Command → (argc : ℕ) → State → Except Fault (Int32 × State)
  | .xgetopt optstring => xgetopt_impl 2 false optstring none
  | .xgetopt_long optstring longopts => xgetopt_impl 2 false optstring longopts
  | .xgetopt_long_only optstring longopts => xgetopt_impl 2 true optstring longopts

end LibXpf.Getopt
