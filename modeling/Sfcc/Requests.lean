import Sfcc.Xml.Encode

-- What the operations of the client send.
namespace Sfcc.Requests

open Xml

def CMPI_FLAG_LocalOnly : UInt32 := 1
def CMPI_FLAG_DeepInheritance : UInt32 := 2
def CMPI_FLAG_IncludeQualifiers : UInt32 := 4
def CMPI_FLAG_IncludeClassOrigin : UInt32 := 8

-- What `emitlocal` and the functions next to it share.
def emit (name : String) (f : UInt32) : Text :=
  bytes "<IPARAMVALUE NAME=\"" ++ bytes name ++ bytes "\"><VALUE>" ++ bytes (if f ≠ 0 then "TRUE" else "FALSE") ++
    bytes "</VALUE></IPARAMVALUE>\n"

def emitlocal := emit "LocalOnly"
def emitqual := emit "IncludeQualifiers"
def emitorigin := emit "IncludeClassOrigin"
def emitdeep := emit "DeepInheritance"

def addXmlClassnameParam (cop : CMPIObjectPath) : Text :=
  if chars cop.classname = [] then []
  else bytes "<IPARAMVALUE NAME=\"ClassName\"><CLASSNAME NAME=\"" ++ chars cop.classname ++ bytes "\"/></IPARAMVALUE>\n"

def addXmlHeader : Text :=
  bytes "<?xml version=\"1.0\" encoding=\"utf-8\" ?>\n" ++ bytes "<CIM CIMVERSION=\"2.0\" DTDVERSION=\"2.0\">\n" ++
    bytes "<MESSAGE ID=\"4711\" PROTOCOLVERSION=\"1.0\">\n" ++ bytes "<SIMPLEREQ>\n"

def addXmlFooter : Text :=
  bytes "</SIMPLEREQ>\n" ++ bytes "</MESSAGE>\n" ++ bytes "</CIM>\n"

-- Nothing is written where the caller gives `NULL`.
def addXmlPropertyListParam (properties : Option (List Text)) : Text :=
  properties.elim [] fun ps =>
    bytes "<IPARAMVALUE NAME=\"PropertyList\"><VALUE.ARRAY>" ++
      ps.flatMap (fun p => bytes "<VALUE>" ++ p ++ bytes "</VALUE>") ++ bytes "</VALUE.ARRAY></IPARAMVALUE>\n"

-- The optional parameters of `associators` and the functions next to it.

def classParam (name : String) (c : Option Text) : Text :=
  c.elim [] fun c =>
    bytes "<IPARAMVALUE NAME=\"" ++ bytes name ++ bytes "\"><CLASSNAME NAME=\"" ++ c ++ bytes "\"/></IPARAMVALUE>\n"

def roleParam (name : String) (r : Option Text) : Text :=
  r.elim [] fun r =>
    bytes "<IPARAMVALUE NAME=\"" ++ bytes name ++ bytes "\"><VALUE>" ++ r ++ bytes "</VALUE></IPARAMVALUE>\n"

-- A parameter with a string as it is.
def valueParam (name : String) (value : Option Text) : Text :=
  bytes "<IPARAMVALUE NAME=\"" ++ bytes name ++ bytes "\">\n<VALUE>" ++ chars value ++ bytes "</VALUE>\n</IPARAMVALUE>"

def imethodcall (name : String) (params : Text) : Text :=
  addXmlHeader ++ bytes "<IMETHODCALL NAME=\"" ++ bytes name ++ bytes "\">" ++ params ++ bytes "</IMETHODCALL>\n" ++
    addXmlFooter

section

variable (printg : Text → Text)

def addXmlObjectName (cop : CMPIObjectPath) (ValueTagName : String) : Except Fault Text := do
  return bytes "<IPARAMVALUE NAME=\"" ++ bytes ValueTagName ++ bytes "\">\n" ++ (← instanceNameElement printg cop) ++
    bytes "</IPARAMVALUE>\n"

def addXmlNamedInstance (cop : CMPIObjectPath) (inst : CMPIInstance) : Except Fault Text := do
  return bytes "<VALUE.NAMEDINSTANCE>\n" ++ (← instanceNameElement printg cop) ++
    (← addXmlInstance printg (some cop) inst) ++ bytes "</VALUE.NAMEDINSTANCE>\n"

end

-- The operations with what the caller gives to them, beside the object path.
inductive Operation
  | enumInstanceNames
  | getInstance (flags : UInt32) (properties : Option (List Text))
  | createInstance (inst : CMPIInstance)
  | setInstance (inst : CMPIInstance) (flags : UInt32) (properties : Option (List Text))
  | deleteInstance
  | execQuery (query lang : Option Text)
  | enumInstances (flags : UInt32) (properties : Option (List Text))
  | associators (assocClass resultClass role resultRole : Option Text) (flags : UInt32) (properties : Option (List Text))
  | associatorNames (assocClass resultClass role resultRole : Option Text)
  | references (resultClass role : Option Text) (flags : UInt32) (properties : Option (List Text))
  | referenceNames (resultClass role : Option Text)
  | invokeMethod (method : Option Text) (args : Option CMPIArgs)
  | setProperty (name : Option Text) (value : CMPIValue) (type : CMPIType)
  | getProperty (name : Option Text)
  | getClass (flags : UInt32) (properties : Option (List Text))
  | enumClassNames (flags : UInt32)
  | enumClasses (flags : UInt32)

namespace Operation

variable (printg : Text → Text) (cop : CMPIObjectPath)

-- The body of the request, or `none` where an argument has a type that is not supported.
def body : Operation → Except Fault (Option Text)
  | enumInstanceNames                                                     => do
    return some (imethodcall "EnumerateInstanceNames" ((← addXmlNamespace cop) ++ addXmlClassnameParam cop))
  | getInstance flags properties                                          => do
    return some (imethodcall "GetInstance" ((← addXmlNamespace cop) ++ emitlocal (flags &&& CMPI_FLAG_LocalOnly) ++
      emitorigin (flags &&& CMPI_FLAG_IncludeClassOrigin) ++ emitqual (flags &&& CMPI_FLAG_IncludeQualifiers) ++
      addXmlPropertyListParam properties ++ (← addXmlObjectName printg cop "InstanceName")))
  | createInstance inst                                                   => do
    return some (imethodcall "CreateInstance" ((← addXmlNamespace cop) ++ bytes "<IPARAMVALUE NAME=\"NewInstance\">\n" ++
      (← addXmlInstance printg (some cop) inst) ++ bytes "</IPARAMVALUE>\n"))
  | setInstance inst flags properties                                     => do
    return some (imethodcall "ModifyInstance" (bytes "\n" ++ (← addXmlNamespace cop) ++
      emitqual (flags &&& CMPI_FLAG_IncludeQualifiers) ++ addXmlPropertyListParam properties ++
      bytes "<IPARAMVALUE NAME=\"ModifiedInstance\">\n" ++ (← addXmlNamedInstance printg cop inst) ++
      bytes "</IPARAMVALUE>\n"))
  | deleteInstance                                                        => do
    return some (imethodcall "DeleteInstance" ((← addXmlNamespace cop) ++ (← addXmlObjectName printg cop "InstanceName")))
  | execQuery query lang                                                  => do
    return some (imethodcall "ExecQuery" ((← addXmlNamespace cop) ++ valueParam "QueryLanguage" lang ++
      valueParam "Query" query))
  | enumInstances flags properties                                        => do
    return some (imethodcall "EnumerateInstances" ((← addXmlNamespace cop) ++ addXmlClassnameParam cop ++
      emitdeep (flags &&& CMPI_FLAG_DeepInheritance) ++ emitlocal (flags &&& CMPI_FLAG_LocalOnly) ++
      emitqual (flags &&& CMPI_FLAG_IncludeQualifiers) ++ emitorigin (flags &&& CMPI_FLAG_IncludeClassOrigin) ++
      addXmlPropertyListParam properties))
  | associators assocClass resultClass role resultRole flags properties   => do
    return some (imethodcall "Associators" ((← addXmlNamespace cop) ++ (← addXmlObjectName printg cop "ObjectName") ++
      classParam "AssocClass" assocClass ++ classParam "ResultClass" resultClass ++ roleParam "Role" role ++
      roleParam "ResultRole" resultRole ++ emitorigin (flags &&& CMPI_FLAG_IncludeClassOrigin) ++
      emitqual (flags &&& CMPI_FLAG_IncludeQualifiers) ++ addXmlPropertyListParam properties))
  | associatorNames assocClass resultClass role resultRole                => do
    return some (imethodcall "AssociatorNames" ((← addXmlNamespace cop) ++ (← addXmlObjectName printg cop "ObjectName") ++
      classParam "AssocClass" assocClass ++ classParam "ResultClass" resultClass ++ roleParam "Role" role ++
      roleParam "ResultRole" resultRole))
  | references resultClass role flags properties                          => do
    return some (imethodcall "References" ((← addXmlNamespace cop) ++ (← addXmlObjectName printg cop "ObjectName") ++
      classParam "ResultClass" resultClass ++ roleParam "Role" role ++
      emitorigin (flags &&& CMPI_FLAG_IncludeClassOrigin) ++ emitqual (flags &&& CMPI_FLAG_IncludeQualifiers) ++
      addXmlPropertyListParam properties))
  | referenceNames resultClass role                                       => do
    return some (imethodcall "ReferenceNames" ((← addXmlNamespace cop) ++ (← addXmlObjectName printg cop "ObjectName") ++
      classParam "ResultClass" resultClass ++ roleParam "Role" role))
  | invokeMethod method args                                              => do
    let ns ← addXmlNamespace cop
    let name ← instanceNameElement printg cop
    return (← addXmlArgs printg (args.getD [])).map fun args =>
      addXmlHeader ++ bytes "<METHODCALL NAME=\"" ++ chars method ++ bytes "\">" ++ bytes "<LOCALINSTANCEPATH>" ++ ns ++
        name ++ bytes "</LOCALINSTANCEPATH>\n" ++ args ++ bytes "</METHODCALL>\n" ++ addXmlFooter
  | setProperty name value type                                           => do
    return some (imethodcall "SetProperty" ((← addXmlNamespace cop) ++ valueParam "PropertyName" name ++
      valueParam "NewValue" (some (← value2Chars printg type value)) ++ (← addXmlObjectName printg cop "InstanceName")))
  | getProperty name                                                      => do
    return some (imethodcall "GetProperty" ((← addXmlNamespace cop) ++ valueParam "PropertyName" name ++
      (← addXmlObjectName printg cop "InstanceName")))
  | getClass flags properties                                             => do
    return some (imethodcall "GetClass" ((← addXmlNamespace cop) ++ emitlocal (flags &&& CMPI_FLAG_LocalOnly) ++
      emitorigin (flags &&& CMPI_FLAG_IncludeClassOrigin) ++ emitqual (flags &&& CMPI_FLAG_IncludeQualifiers) ++
      addXmlPropertyListParam properties ++ addXmlClassnameParam cop))
  | enumClassNames flags                                                  => do
    return some (imethodcall "EnumerateClassNames" ((← addXmlNamespace cop) ++
      emitdeep (flags &&& CMPI_FLAG_DeepInheritance) ++ addXmlClassnameParam cop))
  | enumClasses flags                                                     => do
    return some (imethodcall "EnumerateClasses" ((← addXmlNamespace cop) ++
      emitdeep (flags &&& CMPI_FLAG_DeepInheritance) ++ emitlocal (flags &&& CMPI_FLAG_LocalOnly) ++
      emitqual (flags &&& CMPI_FLAG_IncludeQualifiers) ++ emitorigin (flags &&& CMPI_FLAG_IncludeClassOrigin) ++
      addXmlClassnameParam cop))

end Operation
end Sfcc.Requests
