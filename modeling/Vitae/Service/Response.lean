import Vitae.Json.Basic
import Vitae.Template.Metered
/-!
# Answers of the service

A `Response` is what a client is sent: a status, the type of its content, and the content itself
where it is fixed. A `Failure` is why a request that was understood could not be served; each kind
of it has its status and its code.
-/

namespace Vitae.Service

/-- The content of an answer. -/
inductive Body where
  /-- No content. -/
  | empty
  | json (value : Json)
  /-- A page. -/
  | html (page : String)
  /-- A remark for the reader of a log, whose wording is not fixed. -/
  | remark

/-- An answer. -/
structure Response where
  status : Nat
  contentType : Option String := none
  /-- The methods that the path allows, where another one was used. -/
  allow : Option String := none
  /-- The content. -/
  body : Body := .empty

/-- The content type of JSON. -/
def jsonType : String := "application/json"

/-- The content type of pages. -/
def htmlType : String := "text/html; charset=utf-8"

/-- The content type of remarks. -/
def remarkType : String := "text/plain; charset=utf-8"

namespace Response

/-- An answer with a JSON value. -/
def json (status : Nat) (value : Json) : Response :=
  { status, contentType := some jsonType, body := .json value }

/-- An answer with a page. -/
def page (html : String) : Response :=
  { status := 200, contentType := some htmlType, body := .html html }

/-- An answer to a request that was not understood. -/
def refusal (status : Nat) : Response :=
  { status, contentType := some remarkType, body := .remark }

/-- The same answer without its content. -/
def withoutBody (response : Response) : Response := { response with body := .empty }

end Response

/-! ### Failures -/

/-- Why a request could not be served. -/
inductive Failure where
  /-- The request breaks a rule. -/
  | validation (reason : String)
  /-- The render went over a limit. -/
  | render (error : Template.LimitError)
  /-- Something else went wrong, which clients are not told. -/
  | internal (reason : String)
  deriving Repr, DecidableEq

namespace Failure

/-- The status that a failure is answered with. -/
def status : Failure → Nat
  | validation _ => 400
  | render _ => 422
  | internal _ => 500

/-- The code of a failure, for clients to tell the kinds apart. -/
def code : Failure → String
  | validation _ => "VALIDATION_ERROR"
  | render _ => "RENDER_LIMIT_EXCEEDED"
  | internal _ => "INTERNAL_ERROR"

/-- What clients are told. -/
def message : Failure → String
  | validation reason => reason
  | render error => error.message
  | internal _ => "An internal server error occurred"

/-- What the service itself is told. -/
def report : Failure → String
  | validation reason => "Validation error: " ++ reason
  | render error => "Render error: " ++ error.message
  | internal reason => "Internal server error: " ++ reason

/-- The answer to a request that failed. -/
def response (failure : Failure) : Response :=
  .json failure.status
    (.ofFields
      [("error",
        .ofFields [("code", .str failure.code), ("message", .str failure.message)])])

end Failure

end Vitae.Service
