import HttpEcho.Options

/-!
# Help on the command line

What the program shows when its command line does not start the server.
-/

namespace HttpEcho.Options

/-- The version of the program. -/
def versionText : String := "keepalive-echo 0.1.0"

/-- The options of the program, one a line. -/
def usage : String :=
  "\n".intercalate
    ["An HTTP echo server with keep-alive timeouts", "",
      "Usage: keepalive-echo [OPTIONS]", "",
      "Options:",
      "  -c, --config <FILE>                Path to TOML configuration file",
      "  -l, --listen <ADDRESS>             Address to bind to (e.g., 0.0.0.0:8080)",
      "  -k, --keep-alive-timeout-ms <MS>   Idle time a persistent connection is kept open",
      "      --headers-timeout-ms <MS>      Time allowed to receive a complete request head",
      "      --max-body-size <OCTETS>       Maximum request body size",
      "  -e, --echo <full|first-chunk>      Which part of a non-GET body is echoed back",
      "  -w, --workers <NUMBER>             Number of worker threads",
      "      --log-level <LEVEL>            Log level (trace, debug, info, warn, error)",
      "  -h, --help                         Print help",
      "  -V, --version                      Print version"]

/-- What is shown to the user. -/
def Stop.message : Stop → String
  | help => usage
  | version => versionText
  | unknownArgument => "error: unexpected argument"
  | missingValue | emptyPath => "error: a value is required"
  | unknownChoice => "error: invalid value: possible values are full and first-chunk"
  | notANumber => "error: invalid value: not a number"
  | repeated => "error: an option cannot be used multiple times"
  | unexpectedValue => "error: unexpected value for an option that takes none"

end HttpEcho.Options
