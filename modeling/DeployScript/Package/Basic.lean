import DeployScript.Package.Job
import DeployScript.Text.Quoted
import DeployScript.Text.Utf8

/-!
# Packages

A package is a program that runs one script: it holds the script, its assets, and the names of the
builtins that the script can use.

* `Package.files` lists its files with their bytes.
* `Package.embedded` says where each asset lies and how the program calls it.
* `Package.manifest` and `Package.program` are the texts of the two files that are made up.
-/

namespace DeployScript

/-- A resource in a package. -/
structure Asset where
  name : String
  bytes : List UInt8
  deriving Repr, DecidableEq, Inhabited

/-- How a program refers to an asset: its constant, and the file that the constant holds. -/
structure Embedded where
  name : String
  constant : String
  file : String
  deriving Repr, DecidableEq, Inhabited

/-- The parts of a package. -/
structure Package where
  name : String
  source : String
  builtins : List String
  assets : List Asset
  runtime : RuntimeSource
  deriving Repr, DecidableEq, Inhabited

namespace Package

/-- The asset number `index`. The number keeps the files apart. -/
def embed (asset : Asset) (index : Nat) : Embedded :=
  { name := asset.name
    constant := "ASSET_" ++ toString index
    file := "assets/" ++ toString index ++ "_" ++ asset.name }

/-- The assets as the program refers to them. -/
def embedded (p : Package) : List Embedded :=
  p.assets.zipIdx.map fun (asset, index) => embed asset index

/-! ### The manifest of a package -/

/-- The runtime as a dependency. Texts are written as `quote` writes them. -/
def dependency (quote : String → String) (runtime : RuntimeSource) : String :=
  let source := match runtime with
    | .registry version => "version = " ++ quote version
    | .path path => "path = " ++ quote path
  "\x7b " ++ source ++ ", default-features = false \x7d"

/-- The file that says what the package is made of. -/
def manifest (p : Package) (quote : String → String) : String :=
  let name := quote p.name
  String.join <| [
    "[package]",
    "name = " ++ name,
    "version = \"0.1.0\"",
    "edition = \"2021\"",
    "publish = false",
    "",
    "[[bin]]",
    "name = " ++ name,
    "path = \"src/main.rs\"",
    "",
    "[dependencies]",
    "gscript = " ++ dependency quote p.runtime,
    "tracing = \"0.1\"",
    "",
    "[workspace]"].map (· ++ "\n")

/-! ### The program of a package -/

/-- The names of the builtins as the elements of an array. -/
def builtinNames (p : Package) : String := ", ".intercalate (p.builtins.map Text.quoted)

/-- The constant of an asset. Files are named from the directory of the program. -/
def constantLine (e : Embedded) : String :=
  "const " ++ e.constant ++ ": &[u8] = include_bytes!(" ++ Text.quoted ("../" ++ e.file) ++ ");"

/-- The line of an asset in the table from names to constants. -/
def tableLine (e : Embedded) : String :=
  "    (" ++ Text.quoted e.name ++ ", " ++ e.constant ++ "),"

/-- What the program starts with. -/
def programHead (p : Package) : List String := [
  "//! Generated by gscript " ++ version ++ ". Edits are overwritten on the next compile.",
  "",
  "use std::process::ExitCode;",
  "",
  "use gscript::builtins::\x7bAssetTable, BuiltinLibrary\x7d;",
  "use gscript::logging::\x7bself, Verbosity\x7d;",
  "use gscript::plan::ExecutionPlan;",
  "use gscript::runtime::Runtime;",
  "use gscript::EngineError;",
  "use tracing::\x7berror, info\x7d;",
  "",
  "const SCRIPT: &str = include_str!(\"script.gs\");",
  "",
  "const BUILTINS: &[&str] = &[" ++ p.builtinNames ++ "];",
  ""]

/-- What the program does. -/
def programBody (p : Package) : List String := [
  "",
  "fn main() -> ExitCode \x7b",
  "    logging::init(Verbosity::Normal);",
  "    match run() \x7b",
  "        Ok(()) => ExitCode::SUCCESS,",
  "        Err(err) => \x7b",
  "            error!(\"\x7b\x7d\", err);",
  "            ExitCode::FAILURE",
  "        \x7d",
  "    \x7d",
  "\x7d",
  "",
  "fn run() -> Result<(), EngineError> \x7b",
  "    let mut assets = AssetTable::new();",
  "    for (name, bytes) in ASSETS \x7b",
  "        assets.insert(*name, *bytes);",
  "    \x7d",
  "",
  "    let mut runtime = Runtime::with_assets(assets);",
  "    runtime.register_builtins(&BuiltinLibrary::standard().subset(BUILTINS))?;",
  "    runtime.load(SCRIPT)?;",
  "    runtime.run()?;",
  "",
  "    let report = ExecutionPlan::discover(&runtime)?.execute(&mut runtime)?;",
  "    info!(completed = ?report.completed, " ++ Text.quoted (p.name ++ " finished") ++ ");",
  "    Ok(())",
  "\x7d"]

/-- The file with the program: the script, the builtins, the assets, and a main function that runs
the script and calls its hooks. -/
def program (p : Package) : String :=
  String.join <| (p.programHead ++ p.embedded.map constantLine ++
    ["", "const ASSETS: &[(&str, &[u8])] = &["] ++ p.embedded.map tableLine ++ ["];"] ++
    p.programBody).map (· ++ "\n")

/-! ### The files of a package -/

/-- The path of the manifest in a package. -/
def manifestFile : String := "Cargo.toml"

/-- The path of the script in a package. -/
def scriptFile : String := "src/script.gs"

/-- The path of the program in a package. -/
def programFile : String := "src/main.rs"

/-- The assets with their files. -/
def assetFiles (p : Package) : List (String × List UInt8) :=
  p.assets.zipIdx.map fun (asset, index) => ((embed asset index).file, asset.bytes)

/-- **The files of the package** with their bytes, in the order in which they are written. -/
def files (p : Package) (quote : String → String) : List (String × List UInt8) :=
  [(manifestFile, Text.encode (p.manifest quote)), (scriptFile, Text.encode p.source)] ++ p.assetFiles ++
    [(programFile, Text.encode p.program)]

end Package

end DeployScript
