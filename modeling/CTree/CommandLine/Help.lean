import CTree.CommandLine.Arguments

/-!
# Help

What the program tells about itself and its commands.
-/
namespace CTree.CommandLine

def versionText : String := "csyntax 0.1.0\n"

def programHelp : String :=
"Parse C source into a concrete syntax tree and serialize it as JSON.

Usage: csyntax <COMMAND>

Commands:
  convert  Convert a C source file into a JSON syntax tree file
  tree     Print the JSON syntax tree of a C source file to stdout
  test     Check every `.in`/`.out` fixture pair under a directory
  help     Print this message or the help of the given subcommand(s)

Options:
  -h, --help     Print help
  -V, --version  Print version
"

def convertHelp : String :=
"Convert a C source file into a JSON syntax tree file

Usage: csyntax convert [OPTIONS] [INPUT]

Arguments:
  [INPUT]  The C source file to read [default: input.txt]

Options:
  -o, --output <OUTPUT>  Where to write the JSON document; `-` writes to stdout [default: output.txt]
      --compact          Emit compact JSON instead of four-space indentation
  -h, --help             Print help
"

def treeHelp : String :=
"Print the JSON syntax tree of a C source file to stdout

Usage: csyntax tree [OPTIONS] [INPUT]

Arguments:
  [INPUT]  The C source file to read [default: input.txt]

Options:
      --compact  Emit compact JSON instead of four-space indentation
  -h, --help     Print help
"

def testHelp : String :=
"Check every `.in`/`.out` fixture pair under a directory

Usage: csyntax test [OPTIONS] [PATH]

Arguments:
  [PATH]  The directory containing fixtures [default: tests/fixtures]

Options:
      --bless  Rewrite mismatching or missing `.out` files instead of failing
  -h, --help   Print help
"

def helpHelp : String :=
"Print this message or the help of the given subcommand(s)

Usage: csyntax help [COMMAND]...

Arguments:
  [COMMAND]...  Print help for the subcommand(s)
"

def Topic.text : Topic → String
  | .program => programHelp
  | .command .convert => convertHelp
  | .command .tree => treeHelp
  | .command .test => testHelp
  | .help => helpHelp

end CTree.CommandLine
