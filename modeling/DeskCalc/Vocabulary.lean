import DeskCalc.Fault
import DeskCalc.Number.Elementary
import DeskCalc.Text.Word

/-!
# The vocabulary

The names that an expression may use: two constants and eighteen functions. The word `ANS` is none
of them, for it is replaced by a number before any name is looked up.
-/

namespace DeskCalc

/-- What a name stands for. -/
inductive Meaning where
  | constant (value : Float)
  | unary (f : Float → Float)
  | binary (f : Float → Float → Float)
  | variadic (f : List Float → Float)

namespace Vocabulary

/-- The greatest of the values, minus infinity if there is none, and no number if one of them is
none. -/
def greatest (xs : List Float) : Float :=
  if xs.any Float.isNaN then Binary64.nan
  else xs.foldl (fun a b => if a < b then b else a) (Binary64.infinity true)

/-- The least of the values, infinity if there is none, and no number if one of them is none. -/
def least (xs : List Float) : Float :=
  if xs.any Float.isNaN then Binary64.nan
  else xs.foldl (fun a b => if b < a then b else a) (Binary64.infinity false)

/-- The names and their meanings. `log` is another name of `ln`, and `round` takes a half away from
zero. -/
def entries : List (String × Meaning) :=
  [("PI", .constant (Float.ofBits 0x400921FB54442D18)),
   ("E", .constant (Float.ofBits 0x4005BF0A8B145769)),
   ("sin", .unary Elementary.sin),
   ("cos", .unary Elementary.cos),
   ("tan", .unary Elementary.tan),
   ("asin", .unary Elementary.asin),
   ("acos", .unary Elementary.acos),
   ("atan", .unary Elementary.atan),
   ("sqrt", .unary Float.sqrt),
   ("abs", .unary Float.abs),
   ("floor", .unary Elementary.floor),
   ("ceil", .unary Elementary.ceil),
   ("round", .unary Elementary.round),
   ("exp", .unary Elementary.exp),
   ("log", .unary Elementary.log),
   ("ln", .unary Elementary.log),
   ("log10", .unary Elementary.log10),
   ("pow", .binary Elementary.pow),
   ("max", .variadic greatest),
   ("min", .variadic least)]

/-- The meaning of a name. -/
def meaning? (name : String) : Option Meaning :=
  entries.lookup name

/-- Whether a name has a meaning. -/
def contains (name : String) : Bool :=
  (meaning? name).isSome

/-- Whether a name is that of a function. -/
def isFunction (name : String) : Bool :=
  match meaning? name with
  | some (.constant _) | none => false
  | some _ => true

/-- The name of the function that a word writes in some case. -/
def functionName? (word : Text) : Option Text :=
  if isFunction (String.ofList (Text.lower word)) then some (Text.lower word) else none

/-- The value of a constant. -/
def constantValue (name : String) : Except Fault Float :=
  match meaning? name with
  | some (.constant x) => .ok x
  | some _ => .error (.notValue name)
  | none => .error (.unknownName name)

/-- The value of a function on arguments. -/
def call (name : String) (args : List Float) : Except Fault Float :=
  match meaning? name, args with
  | some (.unary f), [x] => .ok (f x)
  | some (.unary _), _ => .error (.wrongArity name 1 args.length)
  | some (.binary f), [x, y] => .ok (f x y)
  | some (.binary _), _ => .error (.wrongArity name 2 args.length)
  | some (.variadic f), _ => .ok (f args)
  | some (.constant _), _ => .error (.notFunction name)
  | none, _ => .error (.unknownName name)

end Vocabulary

end DeskCalc
