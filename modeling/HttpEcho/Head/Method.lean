/-!
# Request methods
-/

namespace HttpEcho

/-- The method of a request: one of the seven common ones, or any other token. -/
inductive Method where
  | get
  | head
  | post
  | put
  | delete
  | options
  | patch
  | other (token : String)
  deriving DecidableEq, Repr

namespace Method

/-- The method that a token names. Names are case-sensitive. -/
def ofToken (token : String) : Method :=
  if token = "GET" then get
  else if token = "HEAD" then head
  else if token = "POST" then post
  else if token = "PUT" then put
  else if token = "DELETE" then delete
  else if token = "OPTIONS" then options
  else if token = "PATCH" then patch
  else other token

/-- The token that names a method. -/
def token : Method → String
  | get => "GET"
  | head => "HEAD"
  | post => "POST"
  | put => "PUT"
  | delete => "DELETE"
  | options => "OPTIONS"
  | patch => "PATCH"
  | other t => t

/-- Whether a method is none of the seven common ones. -/
def isOther : Method → Bool
  | other _ => true
  | _ => false

/-- A method read from a token is named by that token. -/
theorem token_ofToken (t : String) : (ofToken t).token = t := by
  unfold ofToken
  repeat' split
  all_goals first | rfl | (subst_vars; rfl)

end Method

end HttpEcho
