import Vitae.Resume.TemplateData
import Vitae.Service.MediaType
import Vitae.Service.PageRequest
import Vitae.Service.Response
import Vitae.Service.Settings
import Vitae.Service.Target
import Vitae.Text.Bytes
/-!
# The service

The service has three paths: one tells that it is up, one renders a page, and one answers the
canonical form of a payload. `serve` answers a request; `renderPage` is what becomes of a request
for a page once it is read.
-/

namespace Vitae.Service

/-- A request of a client. -/
structure Request where
  method : String
  /-- The path asked for, or the absolute address that ends in it. -/
  uri : String
  contentType : Option String := none
  /-- The content. -/
  body : String := ""

/-! ### What the paths do -/

/-- The answer that the service is up. -/
def health : Response :=
  .json 200
    (.ofFields
      [("status", .str "ok"), ("version", .str "0.1.0"), ("service", .str "render-api")])

/-- The page of a request. A template without a visible character, and one that is too large, is
refused before it is rendered. -/
def renderPage (settings : Settings) (request : PageRequest) : Except Failure String :=
  let template := request.template.toList
  if Text.trim template = [] then .error (.validation "Template HTML is empty")
  else if settings.maxTemplateBytes < Text.byteCount template then
    .error (.validation
      ("Template HTML exceeds " ++ Text.numeral settings.maxTemplateBytes ++ " bytes"))
  else
    let result :=
      if request.normalize then renderResume settings.renderLimits request.template request.resume
      else Template.render settings.renderLimits request.template request.resume
    match result with
    | .ok html => .ok html
    | .error e => .error (.render e)

/-- The answer to a request for a page. -/
def answerRender (settings : Settings) (request : PageRequest) : Response :=
  match renderPage settings request with
  | .ok html => .page html
  | .error failure => failure.response

/-- The answer to a request for the canonical form of a payload. -/
def answerNormalize (payload : Json) : Response := .json 200 (normalize payload).toJson

/-! ### Reading a request -/

/-- The largest size of a request's content, in bytes. -/
def maxBodyBytes : Nat := 2097152

/-- The answer to content that could not be read. -/
def BodyFault.response : BodyFault → Response
  | .malformed => .refusal 400
  | .misshapen => .refusal 422

/-- Answers a request whose content is JSON: by its content type, its size, and what it reads as. -/
def withJson {α : Type} (request : Request) (read : List Char → Except BodyFault α)
    (answer : α → Response) : Response :=
  if !request.contentType.any namesJson then .refusal 415
  else
    let text := request.body.toList
    if maxBodyBytes < Text.byteCount text then .refusal 413
    else
      match read text with
      | .ok content => answer content
      | .error fault => fault.response

/-- Reads a payload. -/
def readPayload (s : List Char) : Except BodyFault Json :=
  match Json.read? s with
  | some (payload, _) => .ok payload
  | none => .error .malformed

/-! ### Paths and methods -/

/-- The path of a request. -/
def Request.path (request : Request) : String :=
  String.ofList (targetPath request.uri.toList)

/-- The answer to a method that a path does not allow. -/
def notAllowed (methods : String) : Response := { status := 405, allow := some methods }

/-- Answers a request. -/
def serve (settings : Settings) (request : Request) : Response :=
  match request.path with
  | "/health" =>
    match request.method with
    | "GET" => health
    | "HEAD" => health.withoutBody
    | _ => notAllowed "GET,HEAD"
  | "/api/v1/render" =>
    match request.method with
    | "POST" => withJson request PageRequest.read (answerRender settings)
    | _ => notAllowed "POST"
  | "/api/v1/resumes/normalize" =>
    match request.method with
    | "POST" => withJson request readPayload answerNormalize
    | _ => notAllowed "POST"
  | _ => { status := 404 }

end Vitae.Service
