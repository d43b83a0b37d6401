import Vitae.Json.Basic
/-!
# The canonical résumé

A `Resume` holds every field a template can rely on: what a payload leaves out is an empty text or
an empty list. `Resume.toJson` is the form in which it is answered and stored.
-/

namespace Vitae

/-- How to reach a person. -/
structure Contact where
  location : String := ""
  email : String := ""
  phone : String := ""
  linkedin : String := ""
  deriving Repr, DecidableEq

/-- Who the résumé is about. -/
structure Profile where
  name : String := ""
  headline : String := ""
  contact : Contact := {}
  deriving Repr, DecidableEq

/-- One position of a work history. -/
structure WorkItem where
  company : String := ""
  role : String := ""
  employmentType : String := ""
  location : String := ""
  startDate : String := ""
  endDate : String := ""
  bullets : List String := []
  deriving Repr, DecidableEq

/-- One course of study. -/
structure EducationItem where
  institution : String := ""
  degree : String := ""
  field : String := ""
  date : String := ""
  coursework : List String := []
  deriving Repr, DecidableEq

/-- A résumé in canonical form. -/
structure Resume where
  profile : Profile := {}
  summary : String := ""
  skills : List String := []
  work : List WorkItem := []
  education : List EducationItem := []
  deriving Repr, DecidableEq

/-! ### The stored form -/

/-- The contact as an object. -/
def Contact.toJson (contact : Contact) : Json :=
  .ofFields
    [("location", .str contact.location), ("email", .str contact.email),
      ("phone", .str contact.phone), ("linkedin", .str contact.linkedin)]

/-- The profile as an object. -/
def Profile.toJson (profile : Profile) : Json :=
  .ofFields
    [("name", .str profile.name), ("headline", .str profile.headline),
      ("contact", profile.contact.toJson)]

/-- The position as an object. -/
def WorkItem.toJson (item : WorkItem) : Json :=
  .ofFields
    [("companyTitle", .str item.company), ("roleTitle", .str item.role),
      ("employmentType", .str item.employmentType), ("location", .str item.location),
      ("startDate", .str item.startDate), ("endDate", .str item.endDate),
      ("bullets", .ofStrings item.bullets)]

/-- The course of study as an object. -/
def EducationItem.toJson (item : EducationItem) : Json :=
  .ofFields
    [("institution", .str item.institution), ("degree", .str item.degree),
      ("field", .str item.field), ("date", .str item.date),
      ("coursework", .ofStrings item.coursework)]

namespace Resume

/-- The summary as an object. -/
def summaryJson (resume : Resume) : Json := .ofFields [("text", .str resume.summary)]

/-- The skills as an object. -/
def skillsJson (resume : Resume) : Json := .ofFields [("raw", .ofStrings resume.skills)]

/-- The positions as objects. -/
def workJson (resume : Resume) : List Json := resume.work.map WorkItem.toJson

/-- The courses of study as objects. -/
def educationJson (resume : Resume) : List Json := resume.education.map EducationItem.toJson

/-- The résumé as it is stored. -/
def toJson (resume : Resume) : Json :=
  .ofFields
    [("profile", resume.profile.toJson), ("summary", resume.summaryJson),
      ("skills", resume.skillsJson), ("work_experience", .arr resume.workJson),
      ("education", .arr resume.educationJson)]

end Resume

end Vitae
