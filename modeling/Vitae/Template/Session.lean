import Vitae.Template.Render
/-!
# A sequence of renders

A session keeps one context and one count of tags over several renders. A step puts a frame on the
context, takes one off, or renders a template; whatever becomes of a render, the context stays as it
was, and the count goes on.
-/

namespace Vitae.Template

/-- One step of a session. -/
inductive Step where
  /-- Puts a frame on top of the context. -/
  | push (frame : Frame)
  /-- Takes the top frame off the context. -/
  | pop
  /-- Renders a template in the context. -/
  | render (template : String)

/-- What a step gives. -/
inductive Outcome where
  /-- A frame was put on. -/
  | pushed
  /-- Whether there was a frame to take off. -/
  | popped (done : Bool)
  /-- The text of the page, or the limit that was passed. -/
  | rendered (result : Except LimitError String)

/-- The state of a session. -/
structure Session where
  /-- The limits of all its renders together. -/
  limits : Limits
  /-- The context. -/
  stack : Stack
  /-- How many tags were looked at. -/
  used : Nat := 0

namespace Session

/-- Takes one step. -/
def step (session : Session) : Step → Outcome × Session
  | .push frame => (.pushed, { session with stack := frame :: session.stack })
  | .pop => (.popped !session.stack.isEmpty, { session with stack := session.stack.tail })
  | .render template =>
    let (result, used) := (renderIn session.stack template).run session.limits session.used
    (.rendered result, { session with used })

/-- Takes steps in order. Gives what each one gives, with the state of the session after it. -/
def run (session : Session) : List Step → List (Outcome × Session)
  | [] => []
  | s :: rest =>
    let after := session.step s
    after :: after.2.run rest

end Session

end Vitae.Template
