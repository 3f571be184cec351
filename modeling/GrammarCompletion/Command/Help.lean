import GrammarCompletion.Command.Name

/-!
# Help texts
-/

namespace GrammarCompletion.CommandName

def usage : List Bytes := [
  "Usage:",
  "  caret [command]",
  "",
  "Available Commands:",
  "  complete    Print completion candidates at an offset of the input",
  "  completion  Generate the autocompletion script for the specified shell",
  "  ebnf        EBNF grammar tools",
  "  help        Help about any command",
  "  lsp         Start the Language Server Protocol server",
  "",
  "Flags:",
  "  -h, --help   help for caret",
  "",
  "Use \"caret [command] --help\" for more information about a command."]

def helpText : CommandName → Bytes
  | .root => Bytes.join "\n" ((["Grammar-driven code completion", ""] : List Bytes) ++ usage ++ [[]])
  | .complete => Bytes.join "\n" [
    "Print completion candidates at a byte offset of the input.",
    "",
    "The input is read from file, or from stdin when no file is given.",
    "A negative offset means the end of the input.",
    "",
    "Usage:",
    "  caret complete [file] [flags]",
    "",
    "Flags:",
    "      --builtin string   builtin language used when --lang is not given (default \"statemachine\")",
    "      --format string    output format: json or text (default \"text\")",
    "  -h, --help             help for complete",
    "      --lang string      language definition file",
    "      --offset int       byte offset of the caret (default -1)",
    ""]
  | .serve => Bytes.join "\n" [
    "Start the Language Server Protocol server on stdio.",
    "",
    "Language definitions come from --lang flags and from the CARET_LANGUAGES",
    "environment variable, a list of files separated like PATH.",
    "",
    "Usage:",
    "  caret lsp [flags]",
    "",
    "Flags:",
    "      --builtin string     builtin language used when no definition is given (default \"statemachine\")",
    "  -h, --help               help for lsp",
    "      --lang stringArray   language definition file (repeatable)",
    ""]
  | .ebnf => Bytes.join "\n" [
    "EBNF grammar tools",
    "",
    "Usage:",
    "  caret ebnf [command]",
    "",
    "Available Commands:",
    "  atn         Print the augmented transition network of an EBNF grammar",
    "  check       Parse and verify an EBNF grammar file",
    "",
    "Flags:",
    "  -h, --help   help for ebnf",
    "",
    "Use \"caret ebnf [command] --help\" for more information about a command.",
    ""]
  | .check => Bytes.join "\n" [
    "Parse and verify an EBNF grammar file.",
    "",
    "With --start the grammar is also compiled, which checks the naming",
    "conventions: ALL-CAPS productions are tokens, capitalized ones are",
    "parser rules, and lowercase ones are lexer fragments.",
    "",
    "Usage:",
    "  caret ebnf check <file> [flags]",
    "",
    "Flags:",
    "  -h, --help           help for check",
    "      --skip strings   tokens to skip between parser symbols",
    "      --start string   start production for verification (if empty, only checks syntax)",
    ""]
  | .listing => Bytes.join "\n" [
    "Print the augmented transition network of an EBNF grammar",
    "",
    "Usage:",
    "  caret ebnf atn <file> [flags]",
    "",
    "Flags:",
    "  -h, --help           help for atn",
    "      --skip strings   tokens to skip between parser symbols",
    "      --start string   start production",
    ""]
  | .help => Bytes.join "\n" [
    "Help provides help for any command in the application.",
    "Simply type caret help [path to command] for full details.",
    "",
    "Usage:",
    "  caret help [command] [flags]",
    "",
    "Flags:",
    "  -h, --help   help for help",
    ""]
  | .shell => Bytes.join "\n" [
    "Generate the autocompletion script for caret for the specified shell.",
    "See each sub-command's help for details on how to use the generated script.",
    "",
    "Usage:",
    "  caret completion [command]",
    "",
    "Available Commands:",
    "  bash        Generate the autocompletion script for bash",
    "  fish        Generate the autocompletion script for fish",
    "  powershell  Generate the autocompletion script for powershell",
    "  zsh         Generate the autocompletion script for zsh",
    "",
    "Flags:",
    "  -h, --help   help for completion",
    "",
    "Use \"caret completion [command] --help\" for more information about a command.",
    ""]

end GrammarCompletion.CommandName
