import ClipLedger.Model.Address
import ClipLedger.Model.Body
import ClipLedger.Model.Client

/-
  The server side of a conversation: where requests are sent, what they carry, and what comes of
  the responses.
-/
namespace ClipLedger

/-- A response: its `status`, its body in `pieces`, and whether the connection was `broken` after
them. -/
structure Response where
  status : Nat
  pieces : List Bytes
  broken : Bool

namespace Response

/-- Whether a response of this status has no body. -/
def bodiless (r : Response) : Bool := r.status = 204 || r.status = 304

/-- Whether the status is one of success. -/
def isSuccess (r : Response) : Bool := 200 ≤ r.status && r.status ≤ 299

/-- The characters of UTF-16 units; a lone half of a pair becomes U+FFFD. -/
def ofUnits : List Nat → Text
  | [] => []
  | [n] => [if 0xD800 ≤ n ∧ n ≤ 0xDFFF then '\uFFFD' else Char.ofNat n]
  | high :: low :: rest =>
    if 0xD800 ≤ high ∧ high ≤ 0xDBFF ∧ 0xDC00 ≤ low ∧ low ≤ 0xDFFF then
      Char.ofNat (0x10000 + (high - 0xD800) * 1024 + (low - 0xDC00)) :: ofUnits rest
    else if 0xD800 ≤ high ∧ high ≤ 0xDFFF then '\uFFFD' :: ofUnits (low :: rest)
    else Char.ofNat high :: ofUnits (low :: rest)

/-- UTF-16 units, the second byte being the high one if `littleEndian`. A single byte at the end is
the half of a pair that never comes. -/
def units (littleEndian : Bool) : Bytes → List Nat
  | [] => []
  | [_] => [0xD800]
  | a :: b :: rest =>
    (if littleEndian then b.toNat * 256 + a.toNat else a.toNat * 256 + b.toNat)
      :: units littleEndian rest

/-- The text of a body. A byte order mark at its start names the encoding and does not count. -/
def bodyText : Bytes → Text
  | 0xEF :: 0xBB :: 0xBF :: rest => Utf8.decodeLossy rest
  | 0xFF :: 0xFE :: rest => ofUnits (units true rest)
  | 0xFE :: 0xFF :: rest => ofUnits (units false rest)
  | bytes => Utf8.decodeLossy bytes

/-- What comes of `r`: a stream of its body where the status is one of success, else a refusal with
the text of the body. -/
def opening (r : Response) : Opening :=
  let pieces := if r.bodiless then [] else r.pieces
  let broken := r.broken && !r.bodiless
  if r.isSuccess then .stream (Body.events pieces broken)
  else .refused (.status r.status (if broken then [] else bodyText pieces.flatten))

end Response

/-- What is asked for at the service, where `base` is what follows the host in its address; `none`
where that makes no address. -/
def Server.target? (base : Text) : Option Text :=
  Address.target? ((base.reverse.dropWhile (· == '/')).reverse
    ++ "/v1/inference/chat-completion".toList)

/-- The body of `r` for `model`. -/
def Request.toJson (r : Request) (model : Text) : Json :=
  .record [("model_id", .text model),
    ("messages", .list
      [.record [("role", .ofString "system"), ("content", .text r.system)],
        .record [("role", .ofString "user"), ("content", .text r.user)]]),
    ("sampling_params", r.sampling.toJson), ("stream", .bool true)]

/-- A client of a server that gives `responses` one after the other and then is gone. -/
def Client.ofResponses (responses : List Response) : Client :=
  ⟨fun sent _ =>
    match responses[sent.size]? with
    | some r => r.opening
    | none => .refused .transport⟩

/-- A client of an address where no server answers. -/
def Client.unreachable : Client := ⟨fun _ _ => .refused .transport⟩

end ClipLedger
