/-!
# Helper functions of the generated program

The generated program calls small functions of its own, which wrap the object `_o` that
runs it. A program carries the definitions of the helpers it calls and of no others.
-/

namespace Locomotive.Js

/-- The helpers and their definitions. -/
def helpers : List (String × String) :=
  [
    ("after",
      "async function after(timeout, timer, fn) \x7b await _o.after(timeout, timer, fn); " ++
        "\x7d"),
    ("bin$", "function bin$(num, pad = 0) \x7b return num.toString(2).padStart(pad, \"0\"); \x7d"),
    ("cls", "function cls() \x7b _o.cls(); \x7d"),
    ("dec$", "function dec$(num, format) \x7b return _o.dec$(num, format); \x7d"),
    ("dim",
      "function dim(dims, value = 0) \x7b\n" ++
        "\tconst create = (depth) => \x7b\n" ++
        "\t\tconst array = new Array(dims[depth] + 1);\n" ++
        "\t\tif (depth + 1 < dims.length) \x7b\n" ++
        "\t\t\tfor (let i = 0; i < array.length; i += 1) \x7b\n" ++
        "\t\t\t\tarray[i] = create(depth + 1);\n" ++
        "\t\t\t\x7d\n" ++
        "\t\t\x7d else \x7b\n" ++
        "\t\t\tarray.fill(value);\n" ++
        "\t\t\x7d\n" ++
        "\t\treturn array;\n" ++
        "\t\x7d;\n" ++
        "\treturn create(0);\n" ++
        "\x7d"),
    ("draw", "function draw(x, y, pen) \x7b _o.drawMovePlot(\"draw\", x, y, pen); \x7d"),
    ("drawr", "function drawr(x, y, pen) \x7b _o.drawMovePlot(\"drawr\", x, y, pen); \x7d"),
    ("end", "function end() \x7b _o.end(); \x7d"),
    ("every",
      "async function every(timeout, timer, fn) \x7b await _o.every(timeout, timer, fn); " ++
        "\x7d"),
    ("frame", "async function frame() \x7b await _o.frame(); \x7d"),
    ("graphicsPen", "function graphicsPen(num) \x7b _o.graphicsPen(num); \x7d"),
    ("hex$",
      "function hex$(num, pad = 0) \x7b return " ++
        "num.toString(16).toUpperCase().padStart(pad, \"0\"); \x7d"),
    ("ink", "function ink(num, col, col2) \x7b _o.ink(num, col, col2); \x7d"),
    ("inkey$", "async function inkey$() \x7b return await _o.inkey$(); \x7d"),
    ("input",
      "async function input(prompt, isNum) \x7b\n" ++
        "\tconst value = await _o.input(prompt);\n" ++
        "\treturn isNum ? Number(value) : value;\n" ++
        "\x7d"),
    ("instr",
      "function instr(start, str, search) \x7b\n" ++
        "\tif (typeof start === \"string\") \x7b\n" ++
        "\t\tsearch = str;\n" ++
        "\t\tstr = start;\n" ++
        "\t\tstart = 1;\n" ++
        "\t\x7d\n" ++
        "\treturn str.indexOf(search, start - 1) + 1;\n" ++
        "\x7d"),
    ("locate", "function locate(x, y) \x7b _o.locate(x, y); \x7d"),
    ("mode", "function mode(num) \x7b _o.mode(num); \x7d"),
    ("move", "function move(x, y, pen) \x7b _o.drawMovePlot(\"move\", x, y, pen); \x7d"),
    ("mover", "function mover(x, y, pen) \x7b _o.drawMovePlot(\"mover\", x, y, pen); \x7d"),
    ("origin", "function origin(x, y) \x7b _o.origin(x, y); \x7d"),
    ("paper", "function paper(num) \x7b _o.paper(num); \x7d"),
    ("pen", "function pen(num) \x7b _o.pen(num); \x7d"),
    ("plot", "function plot(x, y, pen) \x7b _o.drawMovePlot(\"plot\", x, y, pen); \x7d"),
    ("plotr", "function plotr(x, y, pen) \x7b _o.drawMovePlot(\"plotr\", x, y, pen); \x7d"),
    ("print",
      "function print(...args) \x7b _o.print(...args.map((arg) => typeof arg === " ++
        "\"number\" ? (arg >= 0 ? \" \" : \"\") + arg + \" \" : arg)); \x7d"),
    ("printTag",
      "function printTag(...args) \x7b _o.printTag(...args.map((arg) => typeof arg === " ++
        "\"number\" ? (arg >= 0 ? \" \" : \"\") + arg + \" \" : arg)); \x7d"),
    ("read", "function read() \x7b return _data[_dataPtr++]; \x7d"),
    ("remain", "function remain(timer) \x7b return _o.remain(timer); \x7d"),
    ("restore",
      "function restore(label) \x7b _dataPtr = label === undefined ? 0 : " ++
        "_restoreMap[label]; \x7d"),
    ("right$", "function right$(str, num) \x7b return str.substring(str.length - num); \x7d"),
    ("round",
      "function round(num, dec = 0) \x7b return Math.round(num * Math.pow(10, dec)) / " ++
        "Math.pow(10, dec); \x7d"),
    ("rsx", "async function rsx(name, args) \x7b return await _o.rsx(name, args); \x7d"),
    ("stop", "function stop() \x7b _o.stop(); \x7d"),
    ("str$", "function str$(num) \x7b return num >= 0 ? \" \" + num : String(num); \x7d"),
    ("string$",
      "function string$(num, str) \x7b return (typeof str === \"number\" ? " ++
        "String.fromCharCode(str) : str.charAt(0)).repeat(num); \x7d"),
    ("tag", "function tag(active) \x7b _o.tag(active); \x7d"),
    ("time", "function time() \x7b return _o.time(); \x7d"),
    ("toDeg", "function toDeg(rad) \x7b return rad * 180 / Math.PI; \x7d"),
    ("toRad", "function toRad(deg) \x7b return deg * Math.PI / 180; \x7d"),
    ("val",
      "function val(str) \x7b\n" ++
        "\tconst s = str.trim().toLowerCase();\n" ++
        "\tlet num;\n" ++
        "\tif (s.startsWith(\"&x\")) \x7b\n" ++
        "\t\tnum = parseInt(s.slice(2), 2);\n" ++
        "\t\x7d else if (s.startsWith(\"&h\")) \x7b\n" ++
        "\t\tnum = parseInt(s.slice(2), 16);\n" ++
        "\t\x7d else if (s.startsWith(\"&\")) \x7b\n" ++
        "\t\tnum = parseInt(s.slice(1), 16);\n" ++
        "\t\x7d else \x7b\n" ++
        "\t\tnum = parseFloat(s);\n" ++
        "\t\x7d\n" ++
        "\treturn isNaN(num) ? 0 : num;\n" ++
        "\x7d"),
    ("write",
      "function write(...args) \x7b _o.print(args.map((arg) => typeof arg === \"string\" ? " ++
        "'\"' + arg + '\"' : String(arg)).join(\",\") + \"\\n\"); \x7d"),
    ("xpos", "function xpos() \x7b return _o.xpos(); \x7d"),
    ("ypos", "function ypos() \x7b return _o.ypos(); \x7d"),
    ("zone", "function zone(num) \x7b _o.zone(num); \x7d")
  ]

/-- The name is that of a helper. -/
def isHelper (name : String) : Bool := helpers.any fun h => h.1 == name

/-- The definition of a helper; empty for a name that is no helper. -/
def helperDefinition (name : String) : String := (helpers.lookup name).getD ""

end Locomotive.Js
