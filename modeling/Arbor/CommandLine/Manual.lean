/-!
# What the command line says about itself
-/
namespace Arbor.CommandLine.Manual

def version : String := "ldrx 1.0.0\n"

def synopsis : String := "Usage: ldrx [OPTIONS] [FILE]\n"

def help : String :=
  "Interpreter for the LDRX scripting language\n\n" ++ synopsis ++
  "\nArguments:\n" ++
  "  [FILE]  The script file to execute\n" ++
  "\nOptions:\n" ++
  "  -c, --code <SOURCE>    Execute SOURCE instead of a file\n" ++
  "  -i, --interactive      Start in interactive REPL mode (after running FILE, if given)\n" ++
  "  -n, --newline          Print a newline after each print statement\n" ++
  "      --max-depth <N>    Maximum nested call depth before the program is stopped\n" ++
  "      --max-nesting <N>  Maximum nesting of blocks and expressions while running\n" ++
  "      --explain          Also print a detailed error report on stderr\n" ++
  "      --trace            Log interpreter activity to stderr\n" ++
  "  -h, --help             Print help\n" ++
  "  -V, --version          Print version\n"

def usage : String := synopsis ++ "\nFor more information, try '--help'.\n"

end Arbor.CommandLine.Manual
