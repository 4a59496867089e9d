import AgnostOS.Globals
import Mathlib.Tactic.Common

/-! The shell commands of commands/parser.rs and commands/help.rs, and the texts that the
commands print. -/
namespace AgnostOS.Commands
open Globals

abbrev Text := List Char

instance : LawfulBEq Text := inferInstance

abbrev COMMAND_NAMES : List Text :=
  ["about".toList, "clear".toList, "echo".toList, "font".toList, "help".toList,
    "history".toList, "meminfo".toList, "shutdown".toList, "taskinfo".toList, "uptime".toList]

inductive Command where
  | help | about | history | echo | meminfo | taskinfo | font | clear | shutdown
  | empty | unknown | uptime
  deriving DecidableEq, Repr

/-- `char::is_whitespace`: the Unicode property White_Space. -/
def isWhitespace (c : Char) : Bool :=
  let n := c.toNat
  (0x9 ≤ n ∧ n ≤ 0xd) ∨ n = 0x20 ∨ n = 0x85 ∨ n = 0xa0 ∨ n = 0x1680 ∨
    (0x2000 ≤ n ∧ n ≤ 0x200a) ∨ n = 0x2028 ∨ n = 0x2029 ∨ n = 0x202f ∨ n = 0x205f ∨ n = 0x3000

def completeCommand (word : Text) : Option Text :=
  if word.isEmpty ∨ word.any isWhitespace then none
  else
    match COMMAND_NAMES.filter word.isPrefixOf with
    | [command] => some command
    | _ => none

structure ParsedCommand where
  command : Command
  args : List Text
  flags : List Text

def splitWhitespace (input : Text) : List Text :=
  (input.splitOnP isWhitespace).filter (· ≠ [])

def classify (word : Text) : Command :=
  if word = "help".toList then .help
  else if word = "about".toList then .about
  else if word = "history".toList then .history
  else if word = "echo".toList then .echo
  else if word = "meminfo".toList then .meminfo
  else if word = "taskinfo".toList then .taskinfo
  else if word = "font".toList then .font
  else if word = "clear".toList then .clear
  else if word = "shutdown".toList then .shutdown
  else if word = "uptime".toList then .uptime
  else if word = [] then .empty
  else .unknown

def parse (input : Text) : ParsedCommand :=
  let tokens := splitWhitespace input
  { command := classify (tokens.headD [])
    args := tokens.tail.filter fun token => ¬ ['-'].isPrefixOf token
    flags := tokens.tail.filter fun token => ['-'].isPrefixOf token }

/-! ### Texts -/

def help (args : List Text) : List Text :=
  match args with
  | cmd :: _ =>
    match (parse cmd).command with
    | .help => ["help - show available commands".toList, "usage: help [command]".toList,
        "example: help echo".toList]
    | .echo => ["echo - print text to the screen".toList, "usage: echo <text>".toList,
        "example: echo hello world".toList]
    | .clear => ["clear - clear the screen and reset cursor".toList, "usage: clear".toList]
    | .about => ["about - show information about AgnostOS".toList, "usage: about".toList]
    | .history => ["history - reprint visible screen history".toList, "usage: history".toList]
    | .font => ["font - change the font size".toList, "usage: font <16|20|24|32>".toList,
        "example: font 24".toList]
    | .meminfo => ["meminfo - show heap memory information".toList, "usage: meminfo".toList]
    | .taskinfo => ["taskinfo - show scheduler task statistics".toList, "usage: taskinfo".toList]
    | .uptime => ["uptime - tells how long the system has been running for".toList,
        "usage: uptime".toList]
    | .shutdown => ["shutdown - shuts the machine down instantly".toList,
        "usage: shutdown".toList]
    | .unknown => ["unknown command: ".toList ++ cmd]
    | .empty => []
  | [] => ["AgnostOS shell - available commands:".toList, [],
      "  help      show this message, or help for a specific command".toList,
      "  echo      print text to the screen".toList,
      "  clear     clear the screen".toList,
      "  about     show OS information".toList,
      "  history   reprint screen history".toList,
      "  font      change font size".toList,
      "  meminfo   show heap memory information".toList,
      "  taskinfo  show scheduler task statistics".toList,
      "  uptime    tells how long the system has been running for".toList,
      "  shutdown  shuts the machine down".toList, [],
      "tip: type 'help <command>' for more details".toList,
      "tip: ctrl+c to cancel, ctrl+plus/minus to zoom".toList]

def about : Text :=
  "AgnostOS v0.1 - written in Rust \n codeberg.com/guru901/agnostos".toList

structure MemorySummary where
  ranges : Nat
  usableBytes : Nat
  kernelBytes : Nat
  firmwareBytes : Nat
  acpiBytes : Nat
  deviceBytes : Nat
  runtimeBytes : Nat
  reservedBytes : Nat
  unusableBytes : Nat

structure FrameStats where
  totalFrames : Nat
  freeFrames : Nat
  freeRanges : Nat

structure SchedulerStats where
  taskCount : Nat
  ready : Nat
  sleeping : Nat
  blocked : Nat
  running : Nat
  finished : Nat
  cancelled : Nat

structure SystemInfo where
  heapStart : Nat
  heapSize : Nat
  memory : Option (MemorySummary × Option FrameStats)
  tasks : SchedulerStats
  uptimeMs : Nat

def decimal (n : Nat) : Text := Nat.toDigits 10 n

def hexadecimal (n : Nat) : Text := "0x".toList ++ Nat.toDigits 16 n

def megabytes (bytes : Nat) : Text := decimal (bytes / (1024 * 1024)) ++ "mb".toList

def meminfo (info : SystemInfo) : List Text :=
  ["heap start: ".toList ++ hexadecimal info.heapStart,
    "heap size:  ".toList ++ megabytes info.heapSize] ++
  match info.memory with
  | none => []
  | some (summary, frames) =>
    ["memory ranges: ".toList ++ decimal summary.ranges,
      "usable:        ".toList ++ megabytes summary.usableBytes,
      "kernel-owned:  ".toList ++ megabytes summary.kernelBytes,
      "firmware:      ".toList ++ megabytes summary.firmwareBytes,
      "acpi:           ".toList ++ megabytes summary.acpiBytes,
      "device/mmio:    ".toList ++ megabytes summary.deviceBytes,
      "runtime:        ".toList ++ megabytes summary.runtimeBytes,
      "reserved:       ".toList ++ megabytes summary.reservedBytes,
      "unusable:       ".toList ++ megabytes summary.unusableBytes] ++
    match frames with
    | none => []
    | some frames =>
      ["frames total:   ".toList ++ decimal frames.totalFrames,
        "frames free:    ".toList ++ decimal frames.freeFrames,
        "frame ranges:   ".toList ++ decimal frames.freeRanges]

def taskinfo (info : SystemInfo) : List Text :=
  ["task slots:  ".toList ++ decimal info.tasks.taskCount ++ " / ".toList ++ decimal MAX_TASKS,
    "ready:       ".toList ++ decimal info.tasks.ready,
    "sleeping:    ".toList ++ decimal info.tasks.sleeping,
    "blocked:     ".toList ++ decimal info.tasks.blocked,
    "running:     ".toList ++ decimal info.tasks.running,
    "finished:    ".toList ++ decimal info.tasks.finished,
    "cancelled:   ".toList ++ decimal info.tasks.cancelled]

def uptime (info : SystemInfo) : Text :=
  let totalSeconds := info.uptimeMs / 1000
  decimal (totalSeconds / 3600) ++ " hrs ".toList ++ decimal (totalSeconds % 3600 / 60) ++
    " min ".toList ++ decimal (totalSeconds % 60) ++ " sec".toList

end AgnostOS.Commands
