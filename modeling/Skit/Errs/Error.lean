import Skit.Errs.Sanitize
import Skit.Lib.Json

/-!
# Errors with codes

`Error` is the application error that is sent to a client as JSON. Its code decides the status;
the message is redacted when it is encoded. A JSON body stands as its tree.
-/
namespace Skit.Errs

open Lib

/-- Codes are 32-bit integers; seventeen of them have a name. -/
abbrev Code := UInt32

def internal : Code := 13

def codeNames : List (Code × String) :=
  [(0, "ok"), (1, "canceled"), (2, "unknown"), (3, "invalid_argument"), (4, "deadline_exceeded"),
    (5, "not_found"), (6, "already_exists"), (7, "permission_denied"), (8, "resource_exhausted"),
    (9, "failed_precondition"), (10, "aborted"), (11, "out_of_range"), (12, "unimplemented"),
    (13, "internal"), (14, "unavailable"), (15, "data_loss"), (16, "unauthenticated")]

def codeStatus : List (Code × Nat) :=
  [(0, 200), (1, 499), (2, 500), (3, 400), (4, 504), (5, 404), (6, 409), (7, 403), (8, 429),
    (9, 400), (10, 409), (11, 400), (12, 501), (13, 500), (14, 503), (15, 500), (16, 401)]

/-- `Code.String`. -/
def codeString (c : Code) : Text := text ((codeNames.lookup c).getD "unknown")

/-- `Code.HTTPStatus`. -/
def httpStatus (c : Code) : Nat := (codeStatus.lookup c).getD 500

/-- `args` are the template data of the translation, in a type that only the catalogs know. -/
structure Error (A : Type) where
  code : Code
  codeStr : Text
  title : Text
  message : Text
  fields : List (Text × Text)
  args : Option A
  messageID : Text

variable {A : Type}

def newError (code : Code) (msg : Text) : Error A := ⟨code, codeString code, [], msg, [], none, []⟩

/-- `New`, of an error with the text. -/
def new (code : Code) (err : Text) : Error A := newError code err

def Error.httpStatus (e : Error A) : Nat := Errs.httpStatus e.code

section Encode

/-- An optional member: it is left out when it is empty. -/
def omitempty (name : String) (empty : Bool) (j : Json Int) : List (String × Json Int) :=
  if empty then [] else [(name, j)]

def encodeField (f : Text × Text) : Option (Json Int) :=
  match utf8 f.1, utf8 f.2 with
  | some field, some err => some (.obj [("field", .str field), ("error", .str err)])
  | _, _ => none

/-- `json.Marshal` of an error with a redacted message: it refuses a text that is not UTF-8. -/
def Error.marshal (e : Error A) : Option (Json Int) :=
  match utf8 e.codeStr, utf8 e.title, utf8 e.message, e.fields.mapM encodeField with
  | some code, some title, some detail, some fields =>
    some (.obj ([("code", .str code)] ++ omitempty "title" title.isEmpty (.str title) ++
      [("detail", .str detail)] ++ omitempty "fields" fields.isEmpty (.arr fields)))
  | _, _, _, _ => none

/-- `Encode`. The text of the error of `json.Marshal` is `refusal`. -/
def Error.encode (refusal : Error A → Text) (e : Error A) : Except Text (Json Int × Text) :=
  let out := { e with message := sanitize e.message }
  match out.marshal with
  | some data => .ok (data, text "application/json")
  | none => .error (text "errs: encode: " ++ refusal out)

/-- An error with a code and a message is encoded when its redacted message is UTF-8. -/
theorem encode_newError (refusal : Error A → Text) (code : Code) (msg : Text) :
    (newError code msg : Error A).encode refusal =
      (utf8 (sanitize msg)).elim
        (.error (text "errs: encode: " ++ refusal (newError code (sanitize msg))))
        fun detail => .ok (.obj [("code", .str ((codeNames.lookup code).getD "unknown")),
          ("detail", .str detail)], text "application/json") := by
  have htitle : utf8 [] = some "" := utf8_text ""
  have hcode : utf8 (codeString code) = some ((codeNames.lookup code).getD "unknown") :=
    utf8_text _
  simp only [Error.encode, Error.marshal, newError, hcode, htitle, List.mapM_nil]
  cases utf8 (sanitize msg) <;> rfl

end Encode

end Skit.Errs
