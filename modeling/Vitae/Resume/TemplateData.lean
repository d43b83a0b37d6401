import Vitae.Html.Fragment
import Vitae.Html.Marker
import Vitae.Resume.Payload
import Vitae.Template.Render
/-!
# Résumés as template data

A template sees a résumé under the names of its stored form, under two further spellings of these
names, and with its work history and education as finished markup.
-/

namespace Vitae

/-- The value that templates are rendered against. -/
def Resume.templateData (resume : Resume) : Json :=
  .ofFields
    [("profile", resume.profile.toJson), ("Profile", resume.profile.toJson),
      ("summary", resume.summaryJson), ("skills", resume.skillsJson),
      ("work_experience", .arr resume.workJson), ("workExperience", .arr resume.workJson),
      ("work_experience_html", Html.safe (Html.workHtml resume.workJson)),
      ("education", .arr resume.educationJson),
      ("education_html", Html.safe (Html.educationHtml resume.educationJson))]

/-- Renders a template against the résumé of a payload. -/
def renderResume (limits : Template.Limits) (template : String) (payload : Json) :
    Except Template.LimitError String :=
  Template.render limits template (normalize payload).templateData

end Vitae
