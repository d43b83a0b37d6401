import Mathlib
import Vitae.Proofs.Canonical
import Vitae.Proofs.Cut
import Vitae.Proofs.Events
import Vitae.Proofs.ReadBack
import Vitae.Json.Printer
import Vitae.Service.Answer

/-!
# The endpoints of the service agree

A page can be asked for in three ways: with a payload as it came, with the canonical form that the
service answers for this payload, and with the data that templates see, which are then taken as they
are. All three are the same to the service, since normalizing gives a canonical résumé back from its
stored form. The second and the third can be asked for in fact, as long as they are not too large:
what the service answers is read back when it is sent again (`asksFor_posting`).

What the answer is, is decided in a fixed order: by the template first, and then by its render. Each
kind of answer is given in one of these cases only. For this the answers have to be told apart, down
to the limit that an error names: a failure can be read off its answer (`Failure.response_inj`).
-/

namespace Vitae

open Template (LimitError)

/-! ### Errors and their wording -/

theorem Text.numeral_inj {m n : Nat} (h : Text.numeral m = Text.numeral n) : m = n := by
  have hdigits : Nat.toDigits 10 m = Nat.toDigits 10 n := String.ofList_injective h
  calc
    m = Nat.ofDigitChars 10 (Nat.toDigits 10 m) 0 := Nat.ofDigitChars_ten_toDigits.symm
    _ = n := by rw [hdigits, Nat.ofDigitChars_ten_toDigits]

namespace Template.LimitError

theorem message_tagScans (limit : Nat) :
    message (.tagScans limit) =
      "render limit exceeded: more than " ++ Text.numeral limit ++ " tag scans" := rfl

theorem message_depth (limit : Nat) :
    message (.depth limit) =
      "render limit exceeded: sections nested deeper than " ++ Text.numeral limit := rfl

theorem message_tagScans_ne (limit limit' : Nat) :
    message (.tagScans limit) ≠ message (.depth limit') := by
  intro h
  -- the wordings part at their 24th character
  have hchar := congrArg (fun s => s.toList[23]?) h
  rw [message_tagScans, message_depth, String.toList_append, String.toList_append,
    String.toList_append, List.append_assoc, List.getElem?_append_left (by decide),
    List.getElem?_append_left (by decide)] at hchar
  revert hchar
  decide

/-- The wording of an error tells which limit was passed and how large it was. -/
theorem message_inj {e e' : LimitError} (h : e.message = e'.message) : e = e' := by
  cases e with
  | tagScans limit =>
      cases e' with
      | tagScans limit' =>
          rw [message_tagScans, message_tagScans, String.append_left_inj,
            String.append_right_inj] at h
          rw [Text.numeral_inj h]
      | depth limit' => exact absurd h (message_tagScans_ne limit limit')
  | depth limit =>
      cases e' with
      | tagScans limit' => exact absurd h.symm (message_tagScans_ne limit' limit)
      | depth limit' =>
          rw [message_depth, message_depth, String.append_right_inj] at h
          rw [Text.numeral_inj h]

end Template.LimitError

/-- A render that is stopped names one of the limits that it was given. -/
theorem Template.eq_limit_of_render {limits : Limits} {template : String} {data : Json}
    {e : LimitError} (h : render limits template data = .error e) :
    e = .tagScans limits.maxTagScans ∨ e = .depth limits.maxDepth := by
  obtain ⟨_, event, _, -, -, hrefused⟩ :=
    Limits.breach?_eq_some_iff.mp (Metered.run_eq_error_iff.mp h)
  cases event with
  | scan =>
      simp only [Limits.refuses?, Option.ite_none_right_eq_some, Option.some.injEq] at hrefused
      exact .inl hrefused.2.symm
  | enter depth =>
      simp only [Limits.refuses?, Option.ite_none_right_eq_some, Option.some.injEq] at hrefused
      exact .inr hrefused.2.symm

namespace Service

/-! ### Telling answers apart -/

/-- The answer that tells a client a code and a message. -/
def Response.error (status : Nat) (code message : String) : Response :=
  .json status
    (.ofFields [("error", .ofFields [("code", .str code), ("message", .str message)])])

theorem Response.error_inj {status status' : Nat} {code code' message message' : String}
    (h : Response.error status code message = .error status' code' message') :
    status = status' ∧ code = code' ∧ message = message' := by
  have hbody : Json.ofFields [("error", .ofFields [("code", .str code), ("message", .str message)])] =
      .ofFields [("error", .ofFields [("code", .str code'), ("message", .str message')])] :=
    Body.json.inj (congrArg Response.body h)
  have hfields := congrArg (fun fields => Json.Fields.get? fields "error") (Json.obj.inj hbody)
  simp only [Json.Fields.get?_ofList, List.reverse_singleton, Json.Fields.get?_cons, if_true,
    Option.some.injEq] at hfields
  have hlook (name : String) :=
    congrArg (fun fields => Json.Fields.get? fields name) (Json.obj.inj hfields)
  refine ⟨congrArg Response.status h, ?_, ?_⟩
  · simpa [Json.Fields.get?_ofList, Json.Fields.get?_cons] using hlook "code"
  · simpa [Json.Fields.get?_ofList, Json.Fields.get?_cons] using hlook "message"

/-- A failure can be read off its answer, unless it is one that clients are not told. -/
theorem Failure.response_inj {failure failure' : Failure} (h : failure.response = failure'.response)
    (htold : failure.status ≠ 500) : failure = failure' := by
  obtain ⟨hstatus, -, hmessage⟩ := Response.error_inj h
  cases failure with
  | validation reason =>
      cases failure' with
      | validation reason' => exact congrArg validation hmessage
      | _ => cases hstatus
  | render e =>
      cases failure' with
      | render e' => exact congrArg render (LimitError.message_inj hmessage)
      | _ => cases hstatus
  | internal reason => exact absurd rfl htold

/-! ### What is decided about a page -/

/-- The render that a request for a page asks for. -/
def PageRequest.rendered (limits : Template.Limits) (request : PageRequest) :
    Except LimitError String :=
  if request.normalize then renderResume limits request.template request.resume
  else Template.render limits request.template request.resume

/-- What a client is told of a template that is too large. -/
def tooLarge (maxTemplateBytes : Nat) : String :=
  "Template HTML exceeds " ++ Text.numeral maxTemplateBytes ++ " bytes"

theorem tooLarge_ne (maxTemplateBytes : Nat) :
    tooLarge maxTemplateBytes ≠ "Template HTML is empty" := by
  intro h
  have hchar : (tooLarge maxTemplateBytes).toList[14]? = some 'e' := by
    unfold tooLarge
    rw [String.toList_append, String.toList_append, List.append_assoc,
      List.getElem?_append_left (by decide)]
    decide
  rw [h] at hchar
  revert hchar
  decide

variable {settings : Settings} {request : PageRequest}

theorem renderPage_eq (settings : Settings) (request : PageRequest) :
    renderPage settings request =
      if Text.trim request.template.toList = [] then .error (.validation "Template HTML is empty")
      else if settings.maxTemplateBytes < Text.byteCount request.template.toList then
        .error (.validation (tooLarge settings.maxTemplateBytes))
      else (request.rendered settings.renderLimits).mapError .render := by
  unfold renderPage PageRequest.rendered
  dsimp only
  split
  · rfl
  · split
    · rfl
    · generalize (if request.normalize then _ else _ : Except LimitError String) = result
      cases result <;> rfl

/-- Only the template and its render matter to the answer. -/
theorem answerRender_congr {request' : PageRequest}
    (htemplate : request.template = request'.template)
    (hrendered : request.rendered settings.renderLimits = request'.rendered settings.renderLimits) :
    answerRender settings request = answerRender settings request' := by
  simp only [answerRender, renderPage_eq, htemplate, hrendered]

/-- A request is refused as empty when its template has no visible character. -/
theorem renderPage_eq_empty_iff :
    renderPage settings request = .error (.validation "Template HTML is empty") ↔
      Text.trim request.template.toList = [] := by
  rw [renderPage_eq]
  split
  · rename_i hempty
    exact iff_of_true rfl hempty
  · rename_i hempty
    refine iff_of_false ?_ hempty
    split
    · simpa using tooLarge_ne _
    · cases request.rendered settings.renderLimits <;> simp [Except.mapError]

/-- It is refused as too large when the template is larger than the service allows. -/
theorem renderPage_eq_tooLarge_iff :
    renderPage settings request = .error (.validation (tooLarge settings.maxTemplateBytes)) ↔
      Text.trim request.template.toList ≠ [] ∧
        settings.maxTemplateBytes < Text.byteCount request.template.toList := by
  rw [renderPage_eq]
  split
  · rename_i hempty
    refine iff_of_false ?_ (fun h => h.1 hempty)
    simpa using (tooLarge_ne settings.maxTemplateBytes).symm
  · rename_i hempty
    split
    · rename_i hlarge
      exact iff_of_true rfl ⟨hempty, hlarge⟩
    · rename_i hlarge
      refine iff_of_false ?_ (fun h => hlarge h.2)
      cases request.rendered settings.renderLimits <;> simp [Except.mapError]

/-- Whether a template is neither empty nor too large. -/
def Admits (settings : Settings) (template : String) : Prop :=
  Text.trim template.toList ≠ [] ∧ Text.byteCount template.toList ≤ settings.maxTemplateBytes

/-- Everything else is decided by the render. -/
theorem renderPage_eq_rendered_iff {result : Except LimitError String} :
    renderPage settings request = result.mapError .render ↔
      Admits settings request.template ∧ request.rendered settings.renderLimits = result := by
  rw [renderPage_eq]
  split
  · rename_i hempty
    refine iff_of_false ?_ (fun h => h.1.1 hempty)
    cases result <;> simp [Except.mapError]
  · rename_i hempty
    split
    · rename_i hlarge
      refine iff_of_false ?_ (fun h => Nat.not_le.mpr hlarge h.1.2)
      cases result <;> simp [Except.mapError]
    · rename_i hlarge
      have hadmits : Admits settings request.template := ⟨hempty, Nat.not_lt.mp hlarge⟩
      rw [and_iff_right hadmits]
      cases result <;> cases request.rendered settings.renderLimits <;> simp [Except.mapError]

/-- The answer tells what became of the page. -/
theorem answerRender_eq_page_iff {html : String} :
    answerRender settings request = .page html ↔ renderPage settings request = .ok html := by
  unfold answerRender
  cases renderPage settings request with
  | ok html' => simp [Response.page]
  | error failure => simp [Response.page, Failure.response, Response.json]

theorem answerRender_eq_response_iff (failure : Failure) (htold : failure.status ≠ 500) :
    answerRender settings request = failure.response ↔
      renderPage settings request = .error failure := by
  unfold answerRender
  cases renderPage settings request with
  | ok html => simp [Response.page, Failure.response, Response.json]
  | error failure' =>
      refine ⟨fun h => ?_, fun h => ?_⟩
      · rw [Failure.response_inj h.symm htold]
      · rw [Except.error.inj h]

/-! ### Requests to the endpoints -/

/-- Whether a request is a `POST` of JSON content that is not too large. -/
structure Request.PostsJson (request : Request) (path : String) : Prop where
  path : request.path = path
  method : request.method = "POST"
  json : request.contentType.any namesJson
  small : Text.byteCount request.body.toList ≤ maxBodyBytes

/-- Whether a request asks for the page of `content`. -/
structure Request.AsksFor (request : Request) (content : PageRequest) : Prop
    extends request.PostsJson "/api/v1/render" where
  read : PageRequest.read request.body.toList = .ok content

/-- Whether a request asks for the canonical form of `payload`. -/
structure Request.Submits (request : Request) (payload : Json) : Prop
    extends request.PostsJson "/api/v1/resumes/normalize" where
  read : readPayload request.body.toList = .ok payload

theorem withJson_of_postsJson {α : Type} {request : Request} {path : String}
    (h : request.PostsJson path) {read : List Char → Except BodyFault α} {content : α}
    (hread : read request.body.toList = .ok content) (answer : α → Response) :
    withJson request read answer = answer content := by
  simp [withJson, h.json, Nat.not_lt.mpr h.small, hread]

theorem serve_of_asksFor {request : Request} {content : PageRequest} (h : request.AsksFor content)
    (settings : Settings) : serve settings request = answerRender settings content := by
  simp only [serve, h.path, h.method]
  exact withJson_of_postsJson h.toPostsJson h.read _

theorem serve_of_submits {request : Request} {payload : Json} (h : request.Submits payload)
    (settings : Settings) : serve settings request = answerNormalize payload := by
  simp only [serve, h.path, h.method]
  exact withJson_of_postsJson h.toPostsJson h.read _

/-- A request that posts a value. -/
def Request.posting (uri : String) (value : Json) : Request where
  method := "POST"
  uri := uri
  contentType := some "application/json"
  body := value.text

theorem postsJson_posting {path : String} {value : Json}
    (hpath : String.ofList (targetPath path.toList) = path)
    (hsmall : value.text.utf8ByteSize ≤ maxBodyBytes) :
    (Request.posting path value).PostsJson path where
  path := hpath
  method := rfl
  json := by
    show (some "application/json").any namesJson = true
    decide +kernel
  small := (Text.byteCount_toList value.text).symm ▸ hsmall

/-- A plain payload can be asked for in the form of an object. -/
theorem asksFor_posting {content : PageRequest}
    (hplain : Json.Plain Draft.payloadDepth content.resume)
    (hsmall : content.toJson.text.utf8ByteSize ≤ maxBodyBytes) :
    (Request.posting "/api/v1/render" content.toJson).AsksFor content :=
  ⟨postsJson_posting (by decide +kernel) hsmall, read_toJson hplain⟩

/-- A plain payload can be submitted as it is. -/
theorem submits_posting {payload : Json} (hplain : Json.Plain Json.maxDepth payload)
    (hsmall : payload.text.utf8ByteSize ≤ maxBodyBytes) :
    (Request.posting "/api/v1/resumes/normalize" payload).Submits payload := by
  refine ⟨postsJson_posting (by decide +kernel) hsmall, ?_⟩
  show readPayload payload.text.toList = .ok payload
  rw [readPayload, Json.read?_text hplain]

/-- **One page, three requests.** A request with a payload, one with the canonical form that the
service answers for this payload, and one with its template data to be taken as they are, get the
same answer. The template is refused if it is empty, and else if it is too large; otherwise the
answer is what the render gives, a page or the limit of the settings that it went over. -/
theorem serve_page_agree (settings : Settings) (template : String) (payload : Json)
    (direct editor : Request)
    (hdirect : direct.AsksFor { template, resume := payload, normalize := true })
    (heditor : editor.Submits payload) :
    let answer := serve settings direct
    (∃ record, serve settings editor = .json 200 record ∧
      ∀ again : Request, again.AsksFor { template, resume := record, normalize := true } →
        serve settings again = answer) ∧
      (∀ verbatim : Request, verbatim.AsksFor
          { template, resume := (normalize payload).templateData, normalize := false } →
        serve settings verbatim = answer) ∧
      (answer = .error 400 "VALIDATION_ERROR" "Template HTML is empty" ↔
        Text.trim template.toList = []) ∧
      (answer = .error 400 "VALIDATION_ERROR" (tooLarge settings.maxTemplateBytes) ↔
        Text.trim template.toList ≠ [] ∧
          settings.maxTemplateBytes < Text.byteCount template.toList) ∧
      (∀ e : LimitError, answer = .error 422 "RENDER_LIMIT_EXCEEDED" e.message ↔
        Admits settings template ∧ renderResume settings.renderLimits template payload = .error e ∧
          (e = .tagScans settings.maxTagScans ∨ e = .depth settings.maxDepth)) ∧
      ∀ html : String, answer = .page html ↔
        Admits settings template ∧
          renderResume settings.renderLimits template payload = .ok html := by
  intro answer
  let asked : PageRequest := { template, resume := payload, normalize := true }
  have hanswer : answer = answerRender settings asked := serve_of_asksFor hdirect settings
  -- the stored form is read back as the résumé that the payload is normalized to
  have hrecord : normalize (normalize payload).toJson = normalize payload :=
    normalize_toJson (canonical_normalize payload)
  have hrendered (result : Except LimitError String) :
      renderPage settings asked = result.mapError .render ↔
        Admits settings template ∧ renderResume settings.renderLimits template payload = result :=
    renderPage_eq_rendered_iff
  rw [hanswer]
  refine ⟨⟨_, serve_of_submits heditor settings, fun again hagain => ?_⟩,
    fun verbatim hverbatim => ?_, ?_, ?_, ?_, ?_⟩
  · rw [serve_of_asksFor hagain]
    refine answerRender_congr rfl ?_
    simp only [asked, PageRequest.rendered, if_true, renderResume, hrecord]
  · rw [serve_of_asksFor hverbatim]
    exact answerRender_congr rfl rfl
  · exact (answerRender_eq_response_iff (.validation _) (by simp [Failure.status])).trans
      renderPage_eq_empty_iff
  · exact (answerRender_eq_response_iff (.validation _) (by simp [Failure.status])).trans
      renderPage_eq_tooLarge_iff
  · intro e
    refine (answerRender_eq_response_iff (.render e) (by simp [Failure.status])).trans
      ((hrendered (.error e)).trans ?_)
    exact and_congr_right fun _ => ⟨fun h => ⟨h, Template.eq_limit_of_render h⟩, fun h => h.1⟩
  · intro html
    exact answerRender_eq_page_iff.trans (hrendered (.ok html))

/-- A payload with a skill, sent to both endpoints: in an array behind the template, and then, in an
object each, the canonical form that is answered and the template data. -/
theorem serve_page_agree_skill :
    let payload : Json := .obj [("Skills", .arr [.str " Lean ", .str ""])]
    let template := Template.tagText "skills.raw"
    let record := (normalize payload).toJson
    let data := (normalize payload).templateData
    let direct := Request.posting "/api/v1/render" (.arr [.str template, payload])
    let editor := Request.posting "/api/v1/resumes/normalize" payload
    let again := Request.posting "/api/v1/render" (PageRequest.toJson ⟨template, record, true⟩)
    let verbatim := Request.posting "/api/v1/render" (PageRequest.toJson ⟨template, data, false⟩)
    direct.AsksFor { template, resume := payload, normalize := true } ∧ editor.Submits payload ∧
      again.AsksFor { template, resume := record, normalize := true } ∧
      verbatim.AsksFor { template, resume := data, normalize := false } ∧
      serve {} direct = .page "Lean" ∧ serve {} editor = .json 200 record ∧
      serve {} again = .page "Lean" ∧ serve {} verbatim = .page "Lean" := by
  intro payload template record data direct editor again verbatim
  have hdirect : direct.AsksFor { template, resume := payload, normalize := true } :=
    ⟨⟨by decide +kernel, rfl, by decide +kernel, by decide +kernel⟩, by cbv⟩
  have heditor : editor.Submits payload :=
    submits_posting (.obj (by decide) (by simpa using .arr (by simpa using ⟨.str _, .str _⟩)))
      (by decide +kernel)
  have hagain : again.AsksFor { template, resume := record, normalize := true } :=
    asksFor_posting (normalize payload).plain_toJson (by decide +kernel)
  have hverbatim : verbatim.AsksFor { template, resume := data, normalize := false } :=
    asksFor_posting (normalize payload).plain_templateData (by decide +kernel)
  have hpage : renderResume {} template payload = .ok "Lean" := by decide +kernel
  obtain ⟨⟨answered, hanswered, hsame⟩, hdata, -, -, -, hhtml⟩ :=
    serve_page_agree {} template payload direct editor hdirect heditor
  have hanswer := (hhtml "Lean").mpr ⟨⟨by decide +kernel, by decide +kernel⟩, hpage⟩
  have hrecord : answered = record :=
    Body.json.inj (congrArg Response.body (hanswered.symm.trans (serve_of_submits heditor {})))
  subst hrecord
  exact ⟨hdirect, heditor, hagain, hverbatim, hanswer, hanswered,
    (hsame again hagain).trans hanswer, (hdata verbatim hverbatim).trans hanswer⟩

end Service

end Vitae
