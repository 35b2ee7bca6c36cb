import Transclude.Command.Arguments

namespace Transclude

def versionText : String := "tplinc 0.1.0\n"

def helpText : String :=
  "Inline #include directives into a single parameterized template function\n\n" ++
  "Usage: tplinc [OPTIONS] <COMMAND>\n\n" ++
  "Commands:\n" ++
  "  compile  Compile a template into a module\n" ++
  "  render   Compile a template and evaluate it with concrete options\n" ++
  "  tree     Show the include tree of a template\n\n" ++
  "Options:\n" ++
  "  -v, --verbose          Enable debug logging\n" ++
  "  -q, --quiet            Only log errors\n" ++
  "  -c, --config <CONFIG>  Path to tplinc.toml [env: TPLINC_CONFIG]\n" ++
  "  -h, --help             Print help\n" ++
  "  -V, --version          Print version\n\n" ++
  "Options of compile: -o, --output; -f, --format; --options-ident; --dep-file\n" ++
  "Options of render:  --options; --options-file; -o, --output\n" ++
  "Options of tree:    -d, --depth; -f, --format; --no-dedupe\n"

namespace UsageError

def reason : UsageError → String
  | .help | .version | .helpOnMissing => ""
  | .missingSubcommand => "a command is required"
  | .invalidSubcommand => "unrecognized command"
  | .unknownArgument => "unexpected argument"
  | .invalidValue => "invalid or missing value of an option"
  | .valueValidation => "a value is not a number"
  | .tooManyValues => "a flag takes no value"
  | .conflict => "an option is repeated, or excludes another one"
  | .missingRequired => "a required argument is missing"

def text : UsageError → String
  | .version => versionText
  | .help | .helpOnMissing => helpText
  | e => "error: " ++ e.reason ++ "\n\nFor more information, try '--help'.\n"

end UsageError

end Transclude
