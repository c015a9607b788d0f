/-!
# Explanations

* `usage` — what the program does.
* `commandUsage` — what the command for conversions does.
* `versionText` — the version of the program.
-/

namespace ApiProto.Command

/-- The text of lines. -/
def lines (ls : List String) : String := String.join (ls.map (· ++ "\n"))

/-- What the program does. -/
def usage : String := lines [
  "usage: protoize [-h] [--version] \x7bo2p\x7d ...",
  "",
  "Convert OpenAPI and Swagger documents to Protobuf v3 schemas.",
  "",
  "positional arguments:",
  "  \x7bo2p\x7d",
  "    o2p       Convert OpenAPI/Swagger document to Proto schema",
  "",
  "options:",
  "  -h, --help  show this help message and exit",
  "  --version   Print the version of Protoize."]

/-- What the command for conversions does. -/
def commandUsage : String := lines [
  "usage: protoize o2p [-h] [--out OUT] [--annotate] [--skip-rpcs]",
  "                    [--namespace-enums] [--wrap-primitives] [--indent INDENT]",
  "                    [input]",
  "",
  "positional arguments:",
  "  input              Path or URL of the OpenAPI document (JSON or YAML). Reads",
  "                     stdin if omitted.",
  "",
  "options:",
  "  -h, --help         show this help message and exit",
  "  --out OUT          Path of the .proto file to write. Writes to stdout if",
  "                     omitted.",
  "  --annotate         Emit google.api.http options for gRPC-gateway",
  "  --skip-rpcs        Only generate messages and enums, no service RPCs",
  "  --namespace-enums  Prefix every enum value with the enum name",
  "  --wrap-primitives  Use google.protobuf wrapper messages for scalar fields",
  "  --indent INDENT    Number of spaces per indentation level"]

/-- The version of the program. -/
def versionText : String := lines ["Protoize 0.1.0"]

end ApiProto.Command
