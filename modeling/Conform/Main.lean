/-
Module: Conform.Main
Purpose: The command as a program: real files, standard streams, the clock and the environment.
Main exports: main
-/
import Conform.Command.Run
import Std.Time.DateTime.PlainDateTime
import Std.Time.DateTime.Timestamp

namespace Conform
namespace Main

/-- Files of the system. What cannot be read counts as missing, and what can be read as a file. -/
instance : Storage IO where
  currentDirectory := do
    try return toString (← IO.currentDir)
    catch _ => return "."
  look path := do
    if !Path.isUsable path then return .missing
    try return .file (← IO.FS.readBinFile path)
    catch _ => return .missing
  write path content := do
    if !Path.isUsable path then return false
    try
      IO.FS.writeFile path content
      return true
    catch _ => return false

/-- All bytes up to the end of a stream, after those read already. -/
partial def readAll (stream : IO.FS.Stream) (before : ByteArray) : IO ByteArray := do
  let chunk ← stream.read 65536
  if chunk.isEmpty then return before else readAll stream (before ++ chunk)

/-- All environment variables, from the block the system keeps for the process. -/
def bindings : IO (List (String × String)) := do
  match ← (Storage.look "/proc/self/environ" : IO Entry) with
  | .file block =>
    return (block.toList.splitOn 0).filterMap fun bytes => do
      let text ← String.fromUTF8? ⟨bytes.toArray⟩
      match text.toList.span (· != '=') with
      | (name, _ :: value) => some (String.ofList name, String.ofList value)
      | _ => none
  | _ => return []

/-- The lines of a file that the system keeps, each split at a separator. -/
def records (path separator : String) : IO (List (List String)) := do
  let text := ((← (Storage.look path : IO Entry)).text?).getD ""
  return (text.splitOn "\n").map fun line => line.splitOn separator

/-- The home directory in the system's table of accounts, for the account that the process belongs to. -/
def accountHome : IO (Option String) := do
  let status ← records "/proc/self/status" "\t"
  let accounts ← records "/etc/passwd" ":"
  return do
    let user ← (← status.find? fun fields => fields.head? == some "Uid:")[1]?
    let account ← accounts.find? fun fields => fields[2]? == some user
    account[5]?

/-- What surrounds the process. Configuration files are TOML or JSON. -/
def environment : IO Environment := do
  return { bindings := ← bindings, accountHome := ← accountHome }

/-- A number with zeros in front up to a width. -/
def padded (width n : Nat) : String :=
  let digits := Nat.toDigits 10 n
  String.ofList (List.replicate (width - digits.length) '0' ++ digits)

/-- The time of the clock, with date, time of day and offset zero. -/
def now : IO String := do
  let stamp ← Std.Time.Timestamp.now
  let t := Std.Time.PlainDateTime.ofWallTime (.ofNanoseconds stamp.toNanosecondsSinceUnixEpoch)
  let date := [padded 4 t.year.toInt.toNat, padded 2 t.month.val.toNat, padded 2 t.day.val.toNat]
  let time := [padded 2 t.hour.val.toNat, padded 2 t.minute.val.toNat, padded 2 t.second.val.toNat]
  return "-".intercalate date ++ "T" ++ ":".intercalate time ++ "."
    ++ padded 9 t.nanosecond.val.toNat ++ "+00:00"

end Main
end Conform

/-- Run the command on the given arguments. -/
def main (arguments : List String) : IO UInt32 := do
  let outputs ← Conform.Command.run (Conform.Main.readAll (← IO.getStdin) .empty)
    (← Conform.Main.environment) (← Conform.Main.now) arguments
  IO.print outputs.stdout
  IO.eprint outputs.stderr
  return outputs.exit.toUInt32
