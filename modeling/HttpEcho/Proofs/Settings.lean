import HttpEcho.Proofs.Options
import HttpEcho.Proofs.Text.Utf8
import HttpEcho.Settings.Load

/-!
# Where a setting comes from

A setting is the value that the command line gives, else the value that the settings file gives,
else a default (`Prevails`). Of the settings that are loaded from a command line and the file that
it names this is `Settings.resolves_load`. The log level has an exception (`Settings.Yields`): a
command line that asks for the default level is not told from one that asks for none, so that the
level of the file stands.
-/

namespace HttpEcho

/-- The value of a setting: that of the command line, else that of the file, else the default. Each
of the first two is what its source is read as. -/
inductive Prevails {α : Type} (option : Option String) (read : String → Option α)
    (entry : Option Toml.Value) (readValue : Toml.Value → Option α) (default : α) : α → Prop
  | option {text : String} {value : α} : option = some text → read text = some value →
      Prevails option read entry readValue default value
  | entry {source : Toml.Value} {value : α} : option = none → entry = some source →
      readValue source = some value → Prevails option read entry readValue default value
  | default : option = none → entry = none → Prevails option read entry readValue default default

/-- Both sources are read, and the first one that is there prevails. -/
theorem ReadAs.prevails {α : Type} {option : Option String} {read : String → Option α}
    {entry : Option Toml.Value} {readValue : Toml.Value → Option α} {asked set : Option α}
    (h : ReadAs read option asked) (h' : ReadAs readValue entry set) (default : α) :
    Prevails option read entry readValue default ((asked <|> set).getD default) := by
  cases h with
  | present hread => exact .option rfl hread
  | absent =>
    cases h' with
    | present hvalue => exact .entry rfl rfl hvalue
    | absent => exact .default rfl rfl

/-- A setting that may be absent in the end. -/
theorem ReadAs.prevails_some {α : Type} {option : Option String} {read : String → Option α}
    {entry : Option Toml.Value} {readValue : Toml.Value → Option α} {asked set : Option α}
    (h : ReadAs read option asked) (h' : ReadAs readValue entry set) :
    Prevails option (fun text => (read text).map some) entry (fun source =>
      (readValue source).map some)
      none (asked <|> set) := by
  cases h with
  | present hread => exact .option rfl (congrArg (Option.map some) hread)
  | absent =>
    cases h' with
    | present hvalue => exact .entry rfl rfl (congrArg (Option.map some) hvalue)
    | absent => exact .default rfl rfl

/-! ### Files -/

namespace FileSettings

open Toml (Value Entries)

/-- The value that a document gives to a setting of a section, by its name or its place. -/
def valueOf? (document : Entries) (sectionName name : String) (place : Nat) : Option Value :=
  (Section.ofDocument? sectionName document).bind fun s => s.value? name place

/-- What is set is what the document gives. -/
structure ReadFrom (file : FileSettings) (document : Entries) : Prop where
  listen : ReadAs text? (valueOf? document "server" "listen" 0) file.listen
  workers : ReadAs count? (valueOf? document "server" "workers" 1) file.workers
  maxConnections : ReadAs count? (valueOf? document "server" "max_connections" 2)
    file.maxConnections
  keepAliveTimeout :
    ReadAs count? (valueOf? document "http" "keep_alive_timeout_ms" 0) file.keepAliveTimeout
  headersTimeout : ReadAs count? (valueOf? document "http" "headers_timeout_ms" 1)
    file.headersTimeout
  maxHeaderSize : ReadAs count? (valueOf? document "http" "max_header_size" 2) file.maxHeaderSize
  maxBodySize : ReadAs count? (valueOf? document "http" "max_body_size" 3) file.maxBodySize
  echo : ReadAs echo? (valueOf? document "http" "echo" 4) file.echo
  logLevel : ReadAs text? (valueOf? document "logging" "level" 0) file.logLevel

/-- A setting is read from the entry with its name. -/
theorem readAs_of_setting? {α : Type} {document : Entries} {read : Value → Option α}
    {sectionName name : String} {place : Nat} {s : Section} {value : Option α}
    (hs : Section.ofDocument? sectionName document = some s)
    (h : s.setting? read name place = some value) :
    ReadAs read (valueOf? document sectionName name place) value := by
  rw [valueOf?, hs, Option.bind_some]
  rw [Section.setting?] at h
  cases hvalue : s.value? name place with
  | none =>
    rw [hvalue] at h
    cases h
    exact .absent
  | some source =>
    rw [hvalue] at h
    obtain ⟨x, hx, rfl⟩ := Option.map_eq_some_iff.1 h
    exact .present hx

/-- **What a file sets is what its document gives.** -/
theorem readFrom_of_ofDocument? {document : Entries} {file : FileSettings}
    (h : ofDocument? document = some file) : file.ReadFrom document := by
  obtain ⟨server, hserver, h⟩ := Option.bind_eq_some_iff.1 h
  obtain ⟨http, hhttp, h⟩ := Option.bind_eq_some_iff.1 h
  obtain ⟨logging, hlogging, h⟩ := Option.bind_eq_some_iff.1 h
  obtain ⟨-, -, h⟩ := Option.bind_eq_some_iff.1 h
  obtain ⟨listen, hlisten, h⟩ := Option.bind_eq_some_iff.1 h
  obtain ⟨workers, hworkers, h⟩ := Option.bind_eq_some_iff.1 h
  obtain ⟨maxConnections, hmaxConnections, h⟩ := Option.bind_eq_some_iff.1 h
  obtain ⟨keepAlive, hkeepAlive, h⟩ := Option.bind_eq_some_iff.1 h
  obtain ⟨headers, hheaders, h⟩ := Option.bind_eq_some_iff.1 h
  obtain ⟨maxHeader, hmaxHeader, h⟩ := Option.bind_eq_some_iff.1 h
  obtain ⟨maxBody, hmaxBody, h⟩ := Option.bind_eq_some_iff.1 h
  obtain ⟨echo, hecho, h⟩ := Option.bind_eq_some_iff.1 h
  obtain ⟨level, hlevel, h⟩ := Option.bind_eq_some_iff.1 h
  cases h
  exact {
    listen := readAs_of_setting? hserver hlisten
    workers := readAs_of_setting? hserver hworkers
    maxConnections := readAs_of_setting? hserver hmaxConnections
    keepAliveTimeout := readAs_of_setting? hhttp hkeepAlive
    headersTimeout := readAs_of_setting? hhttp hheaders
    maxHeaderSize := readAs_of_setting? hhttp hmaxHeader
    maxBodySize := readAs_of_setting? hhttp hmaxBody
    echo := readAs_of_setting? hhttp hecho
    logLevel := readAs_of_setting? hlogging hlevel }

end FileSettings

/-! ### Settings -/

namespace Settings

open FileSettings (valueOf? text? count? echo?)

/-- The log level: as for other settings, unless the default level is asked for and the file gives
another one, which then stands. -/
inductive Yields (option : Option String) (entry : Option Toml.Value) : String → Prop
  | prevails {level : String} : Prevails option some entry text? "info" level →
      (option = some "info" → ∀ source, entry = some source → text? source = some "info") →
        Yields option entry level
  | stands {source : Toml.Value} {level : String} : option = some "info" → entry = some source →
      text? source = some level → level ≠ "info" → Yields option entry level

/-- The settings that a command line and a document give, where some settings have no option. -/
structure Resolves (given : List (Options.Key × String)) (document : Toml.Entries) (s : Settings) :
    Prop where
  listen : Prevails (given.lookup .listen) some (valueOf? document "server" "listen" 0) text?
    "0.0.0.0:8080" s.listen
  workers : Prevails (given.lookup .workers) (fun text => (Options.number? text).map some)
    (valueOf? document "server" "workers" 1) (fun source => (count? source).map some) none s.workers
  keepAliveTimeout : Prevails (given.lookup .keepAliveTimeout) Options.number?
    (valueOf? document "http" "keep_alive_timeout_ms" 0) count? 10000 s.keepAliveTimeout
  headersTimeout : Prevails (given.lookup .headersTimeout) Options.number?
    (valueOf? document "http" "headers_timeout_ms" 1) count? 10000 s.headersTimeout
  maxBodySize : Prevails (given.lookup .maxBodySize) Options.number?
    (valueOf? document "http" "max_body_size" 3) count? 16777216 s.maxBodySize
  echo : Prevails (given.lookup .echo) EchoPolicy.ofName? (valueOf? document "http" "echo" 4) echo?
    .full s.echo
  maxConnections : Prevails none (fun _ => none)
    (valueOf? document "server" "max_connections" 2) count?
    10000 s.maxConnections
  maxHeaderSize : Prevails none (fun _ => none)
    (valueOf? document "http" "max_header_size" 2) count?
    16384 s.maxHeaderSize
  logLevel : Yields (given.lookup .logLevel) (valueOf? document "logging" "level" 0) s.logLevel

/-- The log level is chosen from the options and the file with its exception for the default. -/
theorem yields_logLevelOf {options : Options} {file : FileSettings} {option : Option String}
    {entry : Option Toml.Value} (h : ReadAs some option options.logLevel)
    (h' : ReadAs text? entry file.logLevel) : Yields option entry (logLevelOf options file) := by
  have hlevel : logLevelOf options file = if options.logLevel.getD "info" ≠ "info" then
      options.logLevel.getD "info" else file.logLevel.getD "info" := rfl
  rw [hlevel]
  generalize options.logLevel = asked at h ⊢
  generalize file.logLevel = set at h' ⊢
  cases h with
  | absent =>
    rw [Option.getD_none, if_neg fun hne => hne rfl]
    cases h' with
    | absent => exact .prevails (.default rfl rfl) nofun
    | present hread => exact .prevails (.entry rfl rfl hread) nofun
  | @present text level htext =>
    cases htext
    rw [Option.getD_some]
    by_cases hinfo : text = "info"
    · -- the level is taken from the file
      subst hinfo
      rw [if_neg fun hne => hne rfl]
      cases h' with
      | absent => exact .prevails (.option rfl rfl) nofun
      | @present source level hread =>
        by_cases hlevel : level = "info"
        · subst hlevel
          refine .prevails (.option rfl rfl) fun _ source' hsource => ?_
          cases hsource
          exact hread
        · exact .stands rfl rfl hread hlevel
    · rw [if_pos hinfo]
      exact .prevails (.option rfl rfl) fun hoption => absurd (Option.some.inj hoption) hinfo

/-- What the two sources give together. -/
theorem resolves_ofSources {options : Options} {file : FileSettings}
    {given : List (Options.Key × String)} {document : Toml.Entries}
    (hshown : ∀ key, options.Shown (given.lookup key) key) (hfile : file.ReadFrom document) :
    (ofSources options file).Resolves given document where
  listen := ReadAs.prevails (hshown .listen) hfile.listen _
  workers := ReadAs.prevails_some (hshown .workers) hfile.workers
  keepAliveTimeout := ReadAs.prevails (hshown .keepAliveTimeout) hfile.keepAliveTimeout _
  headersTimeout := ReadAs.prevails (hshown .headersTimeout) hfile.headersTimeout _
  maxBodySize := ReadAs.prevails (hshown .maxBodySize) hfile.maxBodySize _
  echo := ReadAs.prevails (hshown .echo) hfile.echo _
  maxConnections := ReadAs.prevails .absent hfile.maxConnections _
  maxHeaderSize := ReadAs.prevails .absent hfile.maxHeaderSize _
  logLevel := yields_logLevelOf (hshown .logLevel) hfile.logLevel

/-- The document that the settings file has, empty if no file is named. -/
inductive Consults (read : String → Except Fault Bytes) : Option String → Toml.Entries → Prop
  | nothing : Consults read none []
  | file {path : String} {octets : Bytes} {text : List Char} {document : Toml.Entries} :
      read path = .ok octets → Utf8.decode? octets = some text → Toml.parse text = some document →
        Consults read (some path) document

theorem ofFile_of_consults {read : String → Except Fault Bytes} {path : String}
    {document : Toml.Entries} {file : FileSettings} (h : Consults read (some path) document)
    (hfile : FileSettings.ofDocument? document = some file) : ofFile read path = .ok file := by
  cases h with
  | @file path octets text document hread htext hdocument =>
    have hparse : FileSettings.parse text = some file := by
      rw [FileSettings.parse, hdocument, Option.bind_some, hfile]
    simp only [ofFile, hread, htext, hparse]

/-- A file that is read well gives its settings, unless these together have a flaw. -/
theorem load_of_consults {read : String → Except Fault Bytes} {options : Options}
    {document : Toml.Entries} {file : FileSettings} (h : Consults read options.config document)
    (hfile : FileSettings.ofDocument? document = some file) :
    load read options = (ofSources options file).flaw?.elim (.ok (ofSources options file))
      fun flaw => .error (.invalid flaw.message) := by
  cases hconfig : options.config with
  | none =>
    rw [hconfig] at h
    cases h
    cases Option.some.inj hfile
    simp only [load, hconfig]
    cases (ofSources options {}).flaw? <;> rfl
  | some path =>
    simp only [load, hconfig, ofFile_of_consults (hconfig ▸ h) hfile]
    cases (ofSources options file).flaw? <;> rfl

/-- **Settings are resolved** from what the command line spells out and from the document that it
names, which is valid: each is the value of the command line, else that of the document, else a
default. The log level alone is that of the document, too, if the command line asks for the default
one. The server has these settings, unless they have a flaw. -/
theorem resolves_load {read : String → Except Fault Bytes} {arguments : List String}
    {options : Options} {document : Toml.Entries} {file : FileSettings}
    (hparse : Options.parse arguments = .ok options)
    (hconsults : Consults read options.config document)
    (hvalid : FileSettings.ofDocument? document = some file) :
    ∃ (given : List (Options.Key × String)) (settings : Settings),
      Options.Spells arguments given ∧ (given.map Prod.fst).Nodup ∧
        given.lookup .config = options.config ∧ settings.Resolves given document ∧
          load read options =
            settings.flaw?.elim (.ok settings) fun flaw => .error (.invalid flaw.message) := by
  obtain ⟨given, hspells, hnodup, hshown⟩ := Options.shown_parse hparse
  have hconfig : given.lookup .config = options.config := by
    have hread : ReadAs Options.path? (given.lookup .config) options.config := hshown .config
    generalize given.lookup .config = text, options.config = path at hread
    cases hread with
    | absent => rfl
    | present hpath => rw [Options.eq_of_path? hpath]
  exact ⟨given, ofSources options file, hspells, hnodup, hconfig,
    resolves_ofSources hshown (FileSettings.readFrom_of_ofDocument? hvalid),
    load_of_consults hconsults hvalid⟩

/-- A settings file that gives two settings. -/
def debugFile : String := "[http]\nkeep_alive_timeout_ms = 9000\n[logging]\nlevel = \"debug\"\n"

/-- Its document. -/
def debugDocument : Toml.Entries := (Toml.parse debugFile.toList).get (by decide +kernel)

theorem consults_debugDocument (path : String) :
    Consults (fun _ => .ok (Utf8.encode debugFile)) (some path) debugDocument :=
  .file rfl (Utf8.decode?_encodeChars _) (Option.some_get _).symm

theorem ofDocument?_debugDocument : FileSettings.ofDocument? debugDocument =
    some { keepAliveTimeout := some 9000, logLevel := some "debug" } := by decide +kernel

/-- A command line that gives one of them. -/
theorem resolves_load_debugFile :
    ∃ (given : List (Options.Key × String)) (settings : Settings),
      Options.Spells ["-k", "250", "--config=c.toml"] given ∧ (given.map Prod.fst).Nodup ∧
        given.lookup .config = some "c.toml" ∧ settings.Resolves given debugDocument ∧
          load (fun _ => .ok (Utf8.encode debugFile))
              { config := some "c.toml", keepAliveTimeout := some 250 } =
            settings.flaw?.elim (.ok settings) fun flaw => .error (.invalid flaw.message) :=
  have hparse : Options.parse ["-k", "250", "--config=c.toml"] =
    .ok { config := some "c.toml", keepAliveTimeout := some 250 } := by rfl
  resolves_load hparse (consults_debugDocument "c.toml") ofDocument?_debugDocument

/-- A command line that asks for the default level, where the file gives another one. -/
theorem logLevel_load_info :
    Options.Spells ["--config", "c.toml", "--log-level", "info"]
        [(.config, "c.toml"), (.logLevel, "info")] ∧
      Options.parse ["--config", "c.toml", "--log-level", "info"] =
        .ok { config := some "c.toml", logLevel := some "info" } ∧
      load (fun _ => .ok (Utf8.encode debugFile))
          { config := some "c.toml", logLevel := some "info" } =
        .ok { keepAliveTimeout := 9000, logLevel := "debug" } :=
  ⟨.separate rfl rfl (.separate rfl rfl .nil), by rfl,
    load_of_consults (consults_debugDocument "c.toml") ofDocument?_debugDocument⟩

end Settings

end HttpEcho
