/-!
# Spellings of a payload's fields

Payloads name one and the same field in several ways. The spellings of a field are listed in the
order in which they are tried.
-/

namespace Vitae.Spelling

/-- The profile of a payload. -/
def profile : List String := ["profile", "Profile"]

/-- The contact of a profile. -/
def contact : List String := ["contact", "Contact"]

/-- The name of a person. -/
def name : List String := ["name", "full_name", "fullName"]

/-- The line under the name. -/
def headline : List String := ["headline", "title"]

/-- The place of a person or of a position. -/
def location : List String := ["location"]

/-- The e-mail address. -/
def email : List String := ["email"]

/-- The telephone number. -/
def phone : List String := ["phone"]

/-- The page on the professional network. -/
def linkedin : List String := ["linkedin", "linkedIn", "linkedin_url", "linkedinUrl"]

/-- The summary of a payload. -/
def summary : List String := ["summary", "Summary"]

/-- The text of a summary that is an object. -/
def summaryText : String := "text"

/-- The skills of a payload. -/
def skills : List String := ["skills", "Skills"]

/-- The list of skills that are an object. -/
def skillsRaw : String := "raw"

/-- The work history of a payload. -/
def work : List String := ["work_experience", "workExperience", "experience"]

/-- The employer of a position. -/
def company : List String :=
  ["companyTitle", "company_title", "company", "companyName", "company_name"]

/-- The role of a position. -/
def role : List String := ["roleTitle", "role_title", "role", "title", "position"]

/-- The kind of employment of a position. -/
def employmentType : List String := ["employmentType", "employment_type"]

/-- The beginning of a position. -/
def startDate : List String := ["startDate", "start_date", "start"]

/-- The end of a position. -/
def endDate : List String := ["endDate", "end_date", "end"]

/-- What was done in a position. -/
def bullets : List String := ["bullets", "bullet_points", "bulletPoints", "highlights"]

/-- The education of a payload. -/
def education : List String := ["education", "Education"]

/-- The school of a course of study. -/
def institution : List String := ["institution", "school", "university"]

/-- The degree of a course of study. -/
def degree : List String := ["degree"]

/-- The subject of a course of study. -/
def field : List String := ["field", "field_of_study", "fieldOfStudy", "major"]

/-- The end of a course of study. -/
def date : List String := ["date", "graduation_date", "graduationDate", "end_date", "endDate"]

/-- The courses of a course of study. -/
def coursework : List String :=
  ["coursework", "courses", "relevant_coursework", "relevantCoursework"]

end Vitae.Spelling
