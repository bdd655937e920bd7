import ClipLedger.Files.Tree

/-
  What can go wrong, as causes with their wording. A cause whose wording depends on the reader
  or transport that met it has none here.
-/
namespace ClipLedger

/-- Why a model gave no answer. -/
inductive ModelError where
  | transport
  | status (code : Nat) (body : Text)
  | unavailable (reason : Text)
  deriving DecidableEq, Repr

/-- Why a `Template` yields no text. -/
inductive TemplateError where
  | malformed
  | unknownName
  | notPrintable
  deriving DecidableEq, Repr

/-- Why a step of capturing, analysing or storing fails. -/
inductive Failure where
  | file (e : FileError)
  | unreadableJson
  | pathNotText
  | settings
  | clipboard (reason : Text)
  | template (e : TemplateError)
  | model (e : ModelError)
  | task
  deriving DecidableEq, Repr

/-- The wording of a model error; `none` where it depends on more than is modelled. -/
def ModelError.message? : ModelError → Option Text
  | .transport => none
  | .status code body => some ("server returned ".toList ++ Text.ofNat code ++ ": ".toList ++ body)
  | .unavailable reason => some ("unavailable: ".toList ++ reason)

/-- The wording of a failure; `none` where it depends on more than is modelled. -/
def Failure.message? : Failure → Option Text
  | .file e => some ("io error: ".toList ++ e.message)
  | .unreadableJson => none
  | .pathNotText =>
    some "serialization error: path contains invalid UTF-8 characters".toList
  | .settings => none
  | .clipboard reason => some ("clipboard unavailable: ".toList ++ reason)
  | .template _ => none
  | .model e => e.message?.map ("inference failed: ".toList ++ ·)
  | .task => none

end ClipLedger
