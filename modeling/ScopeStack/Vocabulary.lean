import ScopeStack.Operation

/-!
# The vocabulary

The operations every environment starts with, family by family: their names, what they are said to
do and what they take from the stack and leave on it.
-/

namespace ScopeStack.Vocabulary

/-- Printing, and the words that end or delay a process. -/
def outputWords : List Operation := [
  ⟨".", "Print the top value followed by a space.", "value -- ", .output .print⟩,
  ⟨".ns", "Print the top value without a trailing space.", "value -- ", .output .printTight⟩,
  ⟨",", "Discard the top value without printing it.", "value -- ", .stack .drop⟩,
  ⟨".s", "Print the stack, bottom first.", " -- ", .output .printStack⟩,
  ⟨"emit", "Print the character with the given code.", "code -- ", .output .emit⟩,
  ⟨"newline", "Print a new line.", " -- ", .output .newline⟩,
  ⟨"space", "Print a space.", " -- ", .output .space⟩,
  ⟨".q", "Stop the current process.", " -- ", .process .quit⟩,
  ⟨".clr", "Clear the current stack.", "... -- ", .stack .clear⟩,
  ⟨"sleep", "Sleep for a number of milliseconds.", "milliseconds -- ", .process .sleep⟩]

/-- Moving values about on the stack. -/
def stackWords : List Operation := [
  ⟨"len", "Push the depth of the current stack.", " -- length", .stack .depth⟩,
  ⟨"swap", "Swap the top 2 values.", "a b -- b a", .stack .swap⟩,
  ⟨"swap-at",
    "Swap two values by their position from the bottom of the stack.",
    "i j -- ", .stack .swapAt⟩,
  ⟨"dup", "Duplicate the top value.", "value -- value value", .stack .dup⟩,
  ⟨"over", "Copy the second value to the top.", "a b -- a b a", .stack .over⟩,
  ⟨"rot", "Rotate the top 3 values.", "a b c -- b c a", .stack .rot⟩,
  ⟨"drop", "Discard the top value.", "value -- ", .stack .drop⟩,
  ⟨"2swap", "Swap the top two pairs of values.", "a b c d -- c d a b", .stack .swapPairs⟩,
  ⟨"2dup", "Duplicate the top pair of values.", "a b -- a b a b", .stack .dupPair⟩,
  ⟨"2over",
    "Copy the second pair of values to the top.",
    "a b c d -- a b c d a b", .stack .overPair⟩,
  ⟨"2drop", "Discard the top pair of values.", "a b -- ", .stack .dropPair⟩]

/-- Calculating. -/
def arithWords : List Operation := [
  ⟨"+", "Add two numbers or concatenate two strings.", "a b -- sum", .arith .add⟩,
  ⟨"-", "Subtract two numbers.", "a b -- difference", .arith .subtract⟩,
  ⟨"*", "Multiply two numbers.", "a b -- product", .arith .multiply⟩,
  ⟨"/", "Divide two numbers.", "a b -- quotient", .arith .divide⟩,
  ⟨"mod", "The remainder of dividing two numbers.", "a b -- remainder", .arith .modulo⟩,
  ⟨"/mod",
    "Divide two numbers, keeping both the remainder and the quotient.",
    "a b -- remainder quotient", .arith .divideModulo⟩]

/-- Comparing, and the logic of booleans. -/
def compareWords : List Operation := [
  ⟨"=", "Are the two values loosely equal?", "a b -- bool", .compare .looseEq⟩,
  ⟨"equals", "Are the two values loosely equal?", "a b -- bool", .compare .looseEq⟩,
  ⟨"eq", "Are the two values of the same kind and equal?", "a b -- bool", .compare .identical⟩,
  ⟨"<", "Is a less than b?", "a b -- bool", .compare .less⟩,
  ⟨">", "Is a greater than b?", "a b -- bool", .compare .greater⟩,
  ⟨"<=", "Is a less than or equal to b?", "a b -- bool", .compare .lessOrEqual⟩,
  ⟨">=", "Is a greater than or equal to b?", "a b -- bool", .compare .greaterOrEqual⟩,
  ⟨"and", "Logical and of two booleans.", "a b -- bool", .compare .and⟩,
  ⟨"or", "Logical or of two booleans.", "a b -- bool", .compare .or⟩,
  ⟨"not", "Logical negation of a boolean.", "bool -- !bool", .compare .not⟩]

/-- Strings. -/
def textWords : List Operation := [
  ⟨"str-len", "The length of a string.", "string -- length", .text .length⟩,
  ⟨"str-at", "The character code at an index of a string.", "string index -- code", .text .charAt⟩,
  ⟨"str-eq", "Are two strings equal?", "a b -- bool", .text .eq⟩,
  ⟨"str-eqi", "Are two strings equal, ignoring case?", "a b -- bool", .text .eqIgnoringCase⟩,
  ⟨"str-tolower", "Convert a string to lower case.", "string -- lower-string", .text .lower⟩,
  ⟨"str-toupper", "Convert a string to upper case.", "string -- upper-string", .text .upper⟩,
  ⟨"str-trim", "Remove leading and trailing whitespace.", "string -- trimmed-string", .text .trim⟩,
  ⟨"substring", "Extract part of a string.", "string start end -- substring", .text .substring⟩,
  ⟨"str-replace",
    "Replace the first occurrence of a search string.",
    "string search replacement -- new-string", .text .replaceFirst⟩,
  ⟨"str-replace-all",
    "Replace every occurrence of a search string.",
    "string search replacement -- new-string", .text .replaceAll⟩,
  ⟨"str-find", "Find a search string, -1 if not found.", "string search -- index", .text .find⟩]

/-- The stack as a list. -/
def listWords : List Operation := [
  ⟨"at",
    "Copy the value at a position, counted from the bottom, to the top.",
    "index -- value", .list .copyAt⟩,
  ⟨"remove-at",
    "Remove the value at a position, counted from the bottom.",
    "index -- ", .list .removeAt⟩,
  ⟨"remove-all", "Remove every value from the stack.", "... -- ", .list .removeAll⟩,
  ⟨"remove", "Remove the first value equal to the given one.", "value -- ", .list .remove⟩,
  ⟨"get", "Push the value that follows a key.", "key -- value", .list .get⟩,
  ⟨"set", "Set the value that follows a key.", "key value -- ", .list .set⟩,
  ⟨"reverse", "Reverse the stack.", "... -- ...", .list .reverse⟩,
  ⟨"sort", "Sort the stack.", "... -- ...", .list .sort⟩,
  ⟨"bsearch", "Binary search of a sorted stack.", "value -- index", .list .search⟩,
  ⟨"replace", "Replace the first value equal to old.", "old new -- ", .list .replaceFirst⟩,
  ⟨"replace-all", "Replace every value equal to old.", "old new -- ", .list .replaceAll⟩]

/-- Running blocks. -/
def controlWords : List Operation := [
  ⟨"!", "Run a block or a word.", "runnable -- ", .control .run⟩,
  ⟨"if", "Run a block if the condition is true.", "bool runnable -- bool", .control .branch⟩,
  ⟨"elif",
    "Run a block if no earlier branch ran and the condition is true.",
    "previous bool runnable -- bool", .control .branchElse⟩,
  ⟨"else", "Run a block if no earlier branch ran.", "previous runnable -- ", .control .otherwise⟩,
  ⟨"when", "Run a block if the condition is true.", "bool runnable -- ", .control .when⟩,
  ⟨"unless", "Run a block if the condition is false.", "bool runnable -- ", .control .unless⟩,
  ⟨"while",
    "Run the body while the condition block leaves true on the stack.",
    "cond-runnable body-runnable -- ", .control .whileTrue⟩,
  ⟨"times",
    "Run a block count times, pushing the counter before each run.",
    "runnable count -- ", .control .times⟩,
  ⟨"times-by",
    "Run a block, stepping the counter up to the count.",
    "runnable count step -- ", .control .timesBy⟩]

/-- Variables and source text. -/
def scopeWords : List Operation := [
  ⟨";", "Define or update a variable.", "value name -- ", .scope .define⟩,
  ⟨";;",
    "Define a variable only if it isn't already bound in this scope.",
    "value name -- ", .scope .defineStrict⟩,
  ⟨"forget", "Remove the nearest binding of a variable.", "name -- ", .scope .forget⟩,
  ⟨"eval", "Evaluate a string of source code.", "source -- ", .scope .eval⟩,
  ⟨"load", "Evaluate a source file.", "path -- ", .scope .load⟩]

/-- Processes. -/
def processWords : List Operation := [
  ⟨"!!", "Run a block as a new process.", "block -- pid", .process .spawn⟩,
  ⟨"self", "The id of the current process.", " -- pid", .process .self⟩,
  ⟨"super", "The id of the process that started this one.", " -- pid", .process .parent⟩,
  ⟨"recv", "Wait for the stack to hold at least count values.", "count -- ", .process .receive⟩,
  ⟨"send", "Push a value onto another process's stack.", "value pid -- ", .process .send⟩,
  ⟨"send-all", "Move the whole stack to another process.", "... pid -- ", .process .sendAll⟩,
  ⟨"take", "Pop a value from another process's stack.", "pid -- value", .process .take⟩,
  ⟨"take-all",
    "Move another process's whole stack onto this one.",
    "pid -- ...", .process .takeAll⟩,
  ⟨"<<", "Push a value onto the parent process's stack.", "value -- ", .process .sendParent⟩,
  ⟨"<<<", "Move the whole stack to the parent process.", "... -- ", .process .sendAllParent⟩,
  ⟨">>", "Pop a value from the parent process's stack.", " -- value", .process .takeParent⟩,
  ⟨">>>",
    "Move the parent process's whole stack onto this one.",
    " -- ...", .process .takeAllParent⟩,
  ⟨"sync-push", "Redirect every push to another process.", "pid -- ", .process .beginPush⟩,
  ⟨"end-sync-push", "Stop redirecting pushes.", " -- ", .process .endPush⟩]

/-- The table every top-level scope starts with. -/
def defaults : OperationTable :=
  .ofList (outputWords ++ stackWords ++ arithWords ++ compareWords ++ textWords ++ listWords ++
    controlWords ++ scopeWords ++ processWords)

end ScopeStack.Vocabulary
