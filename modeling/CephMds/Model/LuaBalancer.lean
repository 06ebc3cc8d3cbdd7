import Mathlib

/-!
# The balancer and its Lua policies

`MDBalancer::custom_balancer` hands the loads of all ranks to a Lua script as one
flat table, which `MDSParser.parse_args` takes apart, and reads the targets back from
a text. Numbers are rational; how they are written and read (`fmt`, `atof`) is a
parameter.
-/

namespace CephMds.LuaBalancer

/-! ## Tables -/

inductive Value
  | str (s : List Char)
  | num (x : ℚ)
  deriving DecidableEq

/-- `t[k]` of an array. -/
def index {α : Type} (t : List α) (k : ℚ) : Option α :=
  if k.den = 1 ∧ 0 < k.num then t[k.num.toNat - 1]? else none

/-- The keys of a rank's table, but for `load`. -/
inductive Metric
  | auth
  | all
  | req
  | q
  | cpu
  | mem
  deriving DecidableEq, Repr

/-- `METRICS`. -/
def METRICS : List Metric := [.auth, .all, .req, .q, .cpu, .mem]

/-- The table of a rank. -/
structure Entry where
  load : ℚ
  field : Metric → Option Value

/-! ## What the script is given -/

/-- What is pushed of an `mds_load_t`. -/
structure MdsLoad where
  auth : ℚ
  all : ℚ
  reqRate : ℚ
  queueLen : ℚ
  cpuLoadAvg : ℚ

/-- The sextuple of a rank. -/
def MdsLoad.pushed (load : MdsLoad) : List Value :=
  [.num load.auth, .num load.all, .num load.reqRate, .num load.queueLen, .num load.cpuLoadAvg, .num (-1)]

/-- `arg`, as `custom_balancer` fills it. -/
def arg (logFile : List Char) (whoami : ℕ) (authmetaload nfiles totalMetaLoad : ℚ) (clusterSize : ℕ)
    (mdsLoad : ℕ → MdsLoad) : List Value :=
  [.str logFile, .num ((whoami : ℚ) + 1), .num authmetaload, .num nfiles, .num totalMetaLoad] ++
    (List.range clusterSize).flatMap fun i => (mdsLoad i).pushed

/-! ## `MDSParser.lua` -/

/-- The loop body of `parse_args` over the metrics: `nmds` is the length of `mdss`. -/
def parseMetric (metrics : List Value) (mdss : List Entry) (i : ℕ) : List Entry :=
  let mdss := if i % METRICS.length = 0 then mdss ++ [⟨0, fun _ => none⟩] else mdss
  match METRICS[i % METRICS.length]? with
  | none => mdss
  | some key => mdss.modify (mdss.length - 1) fun e => { e with field := Function.update e.field key metrics[i]? }

structure Parsed where
  whoami : Option Value
  mdss : List Entry
  authmetaload : Option Value
  nfiles : Option Value
  allmetaload : Option Value

/-- `parse_args`; `none` is the return of `-1`. -/
def parseArgs (arg : List Value) : Option Parsed :=
  if (arg.length - 5) % METRICS.length ≠ 0 then none
  else
    let metrics := arg.drop 5
    some {
      whoami := arg[1]?
      mdss := (List.range metrics.length).foldl (parseMetric metrics) []
      authmetaload := arg[2]?
      nfiles := arg[3]?
      allmetaload := arg[4]? }

/-! ## What the script returns -/

/-- "Trying to send load to myself, zeroing out targets array". -/
def zeroTargets (whoami : ℚ) (targets : List ℚ) : List ℚ :=
  if index targets whoami ≠ some 0 then targets.map fun _ => 0 else targets

/-- `LUA_RETURN`. -/
def luaReturn (fmt : ℚ → List Char) (whoami : ℚ) (targets : List ℚ) : List Char :=
  (zeroTargets whoami targets).flatMap fun t => fmt t ++ [' ']

/-- The end of `custom_balancer`, from the character `start` on. -/
structure Reading where
  val : List Char
  m : ℕ
  myTargets : ℕ → Option ℚ

def Reading.next (atof : List Char → ℚ) (r : Reading) (c : Char) : Reading :=
  let val := r.val ++ [c]
  if c = ' ' ∨ c = '\n' then ⟨[], r.m + 1, Function.update r.myTargets r.m (some (atof val))⟩
  else { r with val := val }

/-- `my_targets`, which has been cleared. -/
def readTargets (atof : List Char → ℚ) (ret : List Char) : ℕ → Option ℚ :=
  (ret.foldl (Reading.next atof) ⟨[], 0, fun _ => none⟩).myTargets

end CephMds.LuaBalancer
