/-!
# Help pages
-/

namespace StyleBundle

inductive HelpPage where
  | program
  | build
  | help
  deriving DecidableEq, Repr

namespace HelpPage

def lines : HelpPage → List String
  | program => [
      "Resolves :import/:export directives and bundles stylesheets",
      "",
      "Usage: lattice [OPTIONS] <COMMAND>",
      "",
      "Commands:",
      "  build  Resolve an entry stylesheet and write the bundle",
      "  help   Print this message or the help of the given subcommand(s)",
      "",
      "Options:",
      "  -v, --verbose...  Increase logging verbosity",
      "  -q, --quiet...    Decrease logging verbosity",
      "  -h, --help        Print help"]
  | build => [
      "Resolve an entry stylesheet and write the bundle",
      "",
      "Usage: lattice build [OPTIONS] [ENTRY]",
      "",
      "Arguments:",
      "  [ENTRY]  Entry stylesheet, relative to the root (defaults to `entry` in lattice.toml)",
      "",
      "Options:",
      "  -r, --root <DIR>     Resolution root",
      "  -v, --verbose...     Increase logging verbosity",
      "  -o, --output <OUT>   Output file (defaults to standard output)",
      "  -q, --quiet...       Decrease logging verbosity",
      "  -c, --config <FILE>  Configuration file (defaults to the nearest lattice.toml)",
      "      --strict         Fail if any import cannot be resolved",
      "      --print-exports  Append the entry's exports as an `:export` block",
      "  -h, --help           Print help"]
  | help => [
      "Print this message or the help of the given subcommand(s)",
      "",
      "Usage: lattice help [COMMAND]...",
      "",
      "Arguments:",
      "  [COMMAND]...  Print help for the subcommand(s)"]

def text (page : HelpPage) : String :=
  String.join (page.lines.map (· ++ "\n"))

/-- The page that the commands after `help` ask for. -/
def ofCommands? : List String → Option HelpPage
  | [] => some program
  | ["build"] => some build
  | ["help"] => some help
  | _ => none

end HelpPage

end StyleBundle
