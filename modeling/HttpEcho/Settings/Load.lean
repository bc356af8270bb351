import HttpEcho.Bytes
import HttpEcho.Settings.Error
import HttpEcho.Settings.File
import HttpEcho.Text.Utf8

/-!
# Loading the settings

A setting comes from the command line, else from the settings file, else from the defaults
(`Settings.ofSources`). `Settings.load` reads the file that the command line names, puts the sources
together, and refuses settings with a flaw.
-/

namespace HttpEcho.Settings

/-- The log level of the sources. The command line decides unless it asks for the default level. -/
def logLevelOf (options : Options) (file : FileSettings) : String :=
  let default : Settings := {}
  let asked := options.logLevel.getD default.logLevel
  if asked ≠ default.logLevel then asked else file.logLevel.getD default.logLevel

/-- The settings that the command line and the settings file give together. -/
def ofSources (options : Options) (file : FileSettings) : Settings :=
  let default : Settings := {}
  { listen := (options.listen <|> file.listen).getD default.listen
    workers := options.workers <|> file.workers
    maxConnections := file.maxConnections.getD default.maxConnections
    keepAliveTimeout :=
      (options.keepAliveTimeout <|> file.keepAliveTimeout).getD default.keepAliveTimeout
    headersTimeout := (options.headersTimeout <|> file.headersTimeout).getD default.headersTimeout
    maxHeaderSize := file.maxHeaderSize.getD default.maxHeaderSize
    maxBodySize := (options.maxBodySize <|> file.maxBodySize).getD default.maxBodySize
    echo := (options.echo <|> file.echo).getD default.echo
    logLevel := logLevelOf options file }

/-- The failure to read a file that is not text. -/
def notText : Fault := ⟨.invalidData, "stream did not contain valid UTF-8"⟩

/-- What the settings file with a path sets. -/
def ofFile (read : String → Except Fault Bytes) (path : String) :
    Except SettingsError FileSettings :=
  match read path with
  | .error fault => .error (.unreadable path fault)
  | .ok bytes =>
    match Utf8.decode? bytes with
    | none => .error (.unreadable path notText)
    | some text =>
      match FileSettings.parse text with
      | none => .error (.malformed path)
      | some file => .ok file

/-- The settings that the command line and the file that it names give, where `read` gives the
octets of a file. -/
def load (read : String → Except Fault Bytes) (options : Options) :
    Except SettingsError Settings :=
  let file : Except SettingsError FileSettings := match options.config with
    | none => .ok {}
    | some path => ofFile read path
  match file with
  | .error e => .error e
  | .ok file =>
    let settings := ofSources options file
    match settings.flaw? with
    | some flaw => .error (.invalid flaw.message)
    | none => .ok settings

end HttpEcho.Settings
