/-!
# Usage texts

What the program says about itself.
-/

namespace ClientBuild.CommandLine

/-- The name and the version of the program. -/
def versionLine : String := "epsgen 0.1.0\n"

/-- The commands in short. -/
def usage : String :=
  "Usage: epsgen [OPTIONS] <COMMAND>\n\n" ++
  "Commands:\n" ++
  "  generate [--target <TARGET>] [--req-url <URL>] [--dist <DIR>] [--api <API>]\n" ++
  "  transform [--write] <FILE>\n" ++
  "  css [--write] <FILE>\n" ++
  "  locale [--write] <FILE>\n" ++
  "  config init [--force]\n" ++
  "  config show\n" ++
  "  completions <SHELL>\n\n" ++
  "Options:\n" ++
  "  -v, --verbose\n" ++
  "      --format <json|text|pretty>\n" ++
  "      --config <FILE>\n" ++
  "  -h, --help\n" ++
  "  -V, --version\n"

/-- The commands that stand behind the name of the program. -/
def commandNames : String := "generate transform css locale config completions help"

/-- A script that lets a shell complete the commands. -/
def completionScript (shell : String) : String :=
  match shell with
  | "bash" => "complete -W \"" ++ commandNames ++ "\" epsgen\n"
  | "fish" => "complete -c epsgen -f -a \"" ++ commandNames ++ "\"\n"
  | "zsh" => "#compdef epsgen\n_arguments \"1:command:(" ++ commandNames ++ ")\"\n"
  | _ => commandNames ++ "\n"

end ClientBuild.CommandLine
