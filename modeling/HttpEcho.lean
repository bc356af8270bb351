import HttpEcho.Head.Stream
import HttpEcho.Loopback
import HttpEcho.Main
import HttpEcho.Service
import HttpEcho.Proofs.Head.Arrival
import HttpEcho.Proofs.Head.Framing
import HttpEcho.Proofs.Body.Decoding
import HttpEcho.Proofs.Session.Conversation
import HttpEcho.Proofs.Session.Pipeline
import HttpEcho.Proofs.Session.Deadlines
import HttpEcho.Proofs.Session.Stopping
import HttpEcho.Proofs.Service.Ledger
import HttpEcho.Proofs.Session.Bounds
import HttpEcho.Proofs.Body.Declared
import HttpEcho.Proofs.Connection.Joins
import HttpEcho.Proofs.Session.Changes
import HttpEcho.Proofs.Treatment
import HttpEcho.Proofs.Session.Acceptance
import HttpEcho.Proofs.Session.Outcome
import HttpEcho.Proofs.Session.Treatment
import HttpEcho.Proofs.Head.BlankLines
import HttpEcho.Proofs.Session.BlankLines
import HttpEcho.Proofs.Body.Interruptions
import HttpEcho.Proofs.Session.Answers
import HttpEcho.Proofs.Session.GoAhead
import HttpEcho.Proofs.Options
import HttpEcho.Proofs.Settings
import HttpEcho.Proofs.Head.Persistence
import HttpEcho.Proofs.Session.Parting
import HttpEcho.Proofs.Response.Headers
import HttpEcho.Proofs.Response.Reading
import HttpEcho.Proofs.Gzip.Inflation
import HttpEcho.Proofs.Gzip.Limits
import HttpEcho.Proofs.Gzip.Deflation
import HttpEcho.Proofs.Gzip.Encoding
import HttpEcho.Proofs.Head.Lists
import HttpEcho.Proofs.Head.Offences
import HttpEcho.Proofs.Body.SizeGrammar
import HttpEcho.Proofs.Session.Progress
