import DeltaForm.Run
import DeltaForm.Value.Operate

/-!
# Evaluation

`eval` evaluates expressions, runtime forms included, and `call` calls functions. Runtime forms make
descriptors and run nothing; `resolve` runs the calls that a descriptor describes, in order, and
yields the plain value that it stands for.

Programs may recurse for ever, so all three take a bound on their depth and stop when they reach it.
-/

namespace DeltaForm

/-- The argument at a position; a missing one is undefined. -/
def argument (args : List Value) (i : Nat) : Value := args[i]?.getD .undefined

/-- The environment of the body of a function before its parameters are bound: a function that has a
name sees itself under it. -/
def Env.withSelf (env : Env) (name : Option String) (self : Value) : Env :=
  match name with
  | some name => env.bind name self
  | none => env

mutual

/-- Evaluates an expression. -/
def eval (depth : Nat) (env : Env) (e : Expr) : Run Value :=
  match depth with
  | 0 => Run.giveUp
  | depth + 1 =>
    match e with
    | .number _ v => pure (.number v)
    | .string _ s => pure (.string s)
    | .bool _ b => pure (.bool b)
    | .null _ => pure .null
    | .undefined _ => pure .undefined
    | .ident _ name =>
      match env.get? name with
      | some v => pure v
      | none => Run.fail (.unbound name)
    | .unary _ op e => do
      let v ← eval depth env e
      pure (Value.unary op v)
    | .binary _ op l r => do
      let v ← eval depth env l
      let w ← eval depth env r
      Run.ofExcept (Value.binary op v w)
    | .logical _ op l r => do
      let v ← eval depth env l
      if v.decides op then pure v else eval depth env r
    | .call _ f args => do
      let f ← eval depth env f
      let args ← evalList depth env args
      call depth f args
    | .conditional _ t c a => do
      let v ← eval depth env t
      if v.isTruthy then eval depth env c else eval depth env a
    | .array _ es => do
      let vs ← evalList depth env es
      Run.fresh (.array · vs)
    | .member _ o p computed => do
      let object ← eval depth env o
      if computed then
        let key ← eval depth env p
        Run.ofExcept (object.property key.text)
      else Run.ofExcept (object.property (p.ident?.getD ""))
    | .function _ name ps body _ => Run.fresh (.closure · name ps body env)
    | .success _ e => do
      let v ← eval depth env e
      Run.fresh (.state · (.success v))
    | .wrap _ f args => do
      let f ← eval depth env f
      let args ← evalList depth env args
      Run.fresh (.state · (.deferred f args))
    | .depend _ lifted f args => do
      let f ← eval depth env f
      let args ← evalList depth env args
      Run.fresh (.state · (.depend lifted f args))
    | .operator _ name =>
      match Native.ofOperator? name with
      | some op => Run.fresh (.native · op)
      | none => Run.fail (.unknownOperator name)
    | .choice _ => Run.fresh (.native · .choice)

/-- Evaluates expressions one after another. -/
def evalList (depth : Nat) (env : Env) (es : List Expr) : Run (List Value) :=
  match depth with
  | 0 => Run.giveUp
  | depth + 1 =>
    match es with
    | [] => pure []
    | e :: es => do
      let v ← eval depth env e
      let vs ← evalList depth env es
      pure (v :: vs)

/-- Calls a function with arguments. Missing ones are undefined, and ones too many are ignored. -/
def call (depth : Nat) (callee : Value) (args : List Value) : Run Value :=
  match depth with
  | 0 => Run.giveUp
  | depth + 1 =>
    match callee with
    | .closure l name ps body env => do
      let env ← bindParams depth (Env.withSelf env name (.closure l name ps body env)) ps args
      eval depth env body
    | .native _ f => callNative depth f args
    | v => Run.fail (.notCallable v.display)

/-- Binds parameters to arguments one after another. The default of a parameter stands in for a
missing or undefined argument, and sees the parameters before it. -/
def bindParams (depth : Nat) (env : Env) (ps : List Param) (args : List Value) : Run Env :=
  match depth with
  | 0 => Run.giveUp
  | depth + 1 =>
    match ps with
    | [] => pure env
    | .required name _ :: ps => bindParams depth (env.bind name (argument args 0)) ps args.tail
    | .optional name _ e :: ps => do
      let v ← (match argument args 0 with
        | .undefined => eval depth env e
        | v => pure v)
      bindParams depth (env.bind name v) ps args.tail

/-- Calls a native function. -/
def callNative (depth : Nat) (f : Native) (args : List Value) : Run Value :=
  match depth with
  | 0 => Run.giveUp
  | depth + 1 =>
    match f with
    | .binary op => Run.ofExcept (Value.binary op (argument args 0) (argument args 1))
    | .logical op =>
      let v := argument args 0
      pure (if v.decides op then v else argument args 1)
    | .unary op => pure (Value.unary op (argument args 0))
    | .member => Run.ofExcept ((argument args 0).property (argument args 1).text)
    | .array => Run.fresh (.array · args)
    | .choice =>
      match args with
      | [test, consequent, alternate] =>
        call depth (if test.isTruthy then consequent else alternate) []
      | _ => Run.fail (.arity 3 args.length)
    | .success => Run.fresh (.state · (.success (argument args 0)))
    | .depend =>
      Run.fresh (.state · (.depend (argument args 0).isTruthy (argument args 1) (args.drop 2)))
    | .lookup _ table => do
      let found ← Run.ofExcept (table.property ((args.head?.map Value.text).getD ""))
      Run.fresh (.state · (.success found))

end

mutual

/-- Runs the calls that a state describes. Any other value is its own result. -/
def resolve (depth : Nat) (v : Value) : Run Value :=
  match depth with
  | 0 => Run.giveUp
  | depth + 1 =>
    match v with
    | .state _ (.success v) => pure v
    | .state _ (.depend lifted f args) => do
      let f ← resolve depth f
      let args ← resolveList depth args
      let result ← call depth f args
      if lifted then pure result else resolve depth result
    | .state _ (.deferred f args) => do
      let result ← call depth f args
      resolve depth result
    | v => pure v

/-- Resolves values one after another. -/
def resolveList (depth : Nat) (vs : List Value) : Run (List Value) :=
  match depth with
  | 0 => Run.giveUp
  | depth + 1 =>
    match vs with
    | [] => pure []
    | v :: vs => do
      let v ← resolve depth v
      let vs ← resolveList depth vs
      pure (v :: vs)

end

/-- Makes native functions under their names. -/
def natives : List Native → Run (List (String × Value))
  | [] => pure []
  | f :: fs => do
    let v ← Run.fresh (.native · f)
    let vs ← natives fs
    pure ((f.name, v) :: vs)

/-- The runtime as an object, through which programs reach it by name. -/
def namespaceObject : Run Value := do
  let operators ← natives (Native.operatorNames.filterMap Native.ofOperator?)
  let operators ← Run.fresh (.object · operators)
  let makers ← natives [.success, .depend]
  let choice ← natives [.choice]
  Run.fresh (.object · (makers ++ ("operators", operators) :: choice))

/-- The depth that programs are allowed by default. -/
def depthLimit : Nat := 100000

end DeltaForm
