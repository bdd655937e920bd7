import ClipLedger.Text.Hex
import ClipLedger.Text.Utf8

/-
  Web addresses: what is asked for at a host, from the text that follows the host in an address.
  The text has to start a path, a query or a fragment. Dots in a path are resolved, a backslash
  separates as a slash does, and characters that may not stand in a path or a query are written
  as their bytes after a percent sign. A fragment is not sent.
-/
namespace ClipLedger.Address

/-- The characters that an address drops, wherever they stand. -/
def isIgnored (c : Char) : Bool := c == '\t' || c == '\n' || c == '\r'

/-- What separates the `segments` of a path. -/
def isSeparator (c : Char) : Bool := c == '/' || c == '\\'

/-- A percent sign and the two digits of a byte. -/
def escapeByte (b : UInt8) : Text :=
  ['%', (Hex.digit (b.toNat / 16)).toUpper, (Hex.digit (b.toNat % 16)).toUpper]

/-- A character, written as its bytes if it is one of `reserved`, a control, a blank or not
ASCII. -/
def escapeChar (reserved : Text) (c : Char) : Text :=
  if c.toNat ≤ 0x20 ∨ 0x7F ≤ c.toNat ∨ c ∈ reserved then (Utf8.encodeChar c).flatMap escapeByte
  else [c]

/-- A segment of a path as it is sent, with `escapeChar`. -/
def segment (t : Text) : Text := t.flatMap (escapeChar ['"', '<', '>', '\x60', '\x7b', '\x7d'])

/-- A query as it is sent, with `escapeChar`. -/
def query (t : Text) : Text := t.flatMap (escapeChar ['"', '<', '>', '\''])

/-- The segments of a path, each without its separator. -/
def segments (path : Text) : List Text := path.splitOnP isSeparator

/-- The number of dots that a segment consists of, a dot being written out or as `%2e`. -/
def dots? : Text → Option Nat
  | [] => some 0
  | '.' :: rest => (dots? rest).map (· + 1)
  | '%' :: '2' :: c :: rest => if c = 'e' ∨ c = 'E' then (dots? rest).map (· + 1) else none
  | _ => none

/-- Resolves segments of one and of two dots. `done` holds the segments before, the last one first;
dots at the end leave an empty segment. -/
def resolve (done : List Text) : List Text → List Text
  | [] => done.reverse
  | s :: rest =>
    let close (done : List Text) := if rest = [] then [] :: done else done
    match dots? s with
    | some 1 => resolve (close done) rest
    | some 2 => resolve (close done.tail) rest
    | _ => resolve (segment s :: done) rest

/-- The path that is asked for, after `resolve`. -/
def path (t : Text) : Text := '/' :: Text.join ['/'] (resolve [] (segments t))

/-- What is asked for, from the text `afterHost`; `none` where no path can begin there. -/
def target? (afterHost : Text) : Option Text :=
  let t := afterHost.filter (!isIgnored ·)
  let front := t.takeWhile fun c => c != '?' && c != '#'
  let asked := match t.dropWhile (fun c => c != '?' && c != '#') with
    | '?' :: rest => '?' :: query (rest.takeWhile (· != '#'))
    | _ => []
  match front with
  | [] => if t = [] then none else some ('/' :: asked)
  | c :: rest => if isSeparator c then some (path rest ++ asked) else none

end ClipLedger.Address
